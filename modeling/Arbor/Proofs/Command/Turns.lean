import Arbor.Command.Run
import Arbor.Proofs.Eval.Agreement
import Arbor.Proofs.Eval.Renaming
import Arbor.Proofs.Eval.Restoration
import Arbor.Proofs.Text.Utf8

/-!
Every line of the scripted loop for itself.

Between two lines a session is idle: nothing is printed or traced, and no function is in use. All
that an evaluation leaves behind is the next free handle, and what it leaves in use it has taken
(`takeTurn_idle`). Since handles are names, a line gives the same report in every idle session, so
that the loop prints what the lines print one by one.
-/

set_option autoImplicit false

namespace Arbor

open Filter

theorem Text.trimChars_carriageReturn (cs : List Char) :
    trimChars (cs ++ ['\r']) = trimChars cs := by
  have hblank : isBlank '\r' = true := by decide
  unfold trimChars
  rw [List.dropWhile_append]
  cases hcs : cs.dropWhile isBlank with
  | nil => simp [hblank]
  | cons c rest => simp [hblank]

namespace Command

/-! ## Lines -/

/-- What the loop takes for a line: its bytes without a carriage return at the end. -/
def token (line : List UInt8) : List UInt8 := lineBytes line.reverse

/-- The line trims to a word that ends the loop. -/
def quits (line : List UInt8) : Bool :=
  let text := String.ofList (Text.trimChars (Text.decodeLossy line))
  text == ":quit" || text == ":q"

theorem trimChars_token (line : List UInt8) :
    Text.trimChars (Text.decodeLossy (token line)) = Text.trimChars (Text.decodeLossy line) := by
  unfold token lineBytes
  split
  · next rest hrest =>
    have hline : line = rest.reverse ++ [13] := by
      rw [← List.reverse_reverse line, hrest, List.reverse_cons]
    rw [hline, Text.decodeLossy_carriageReturn, Text.trimChars_carriageReturn]
  · rw [List.reverse_reverse]

theorem ofLine_quit_iff (line : List UInt8) : Turn.ofLine line = .quit ↔ quits line = true := by
  unfold Turn.ofLine quits
  generalize Text.trimChars (Text.decodeLossy line) = cs
  split
  · decide
  · next rest =>
    have hword : ∀ word : String, String.ofList (':' :: rest) = ":" ++ word ↔
        String.ofList rest = word := by
      intro word
      rw [← String.toList_inj, ← String.toList_inj, String.toList_ofList, String.toList_ofList,
        String.toList_append]
      exact List.cons_inj_right ':'
    simp only [Bool.or_eq_true, beq_iff_eq]
    rw [show ":quit" = ":" ++ "quit" by decide, show ":q" = ":" ++ "q" by decide, hword, hword]
    split <;> simp_all
  · next hempty hcolon =>
    have hword : ∀ word : String, String.ofList cs ≠ ":" ++ word := by
      intro word h
      rw [← String.toList_inj, String.toList_ofList, String.toList_append] at h
      exact hcolon _ h
    simp only [Bool.or_eq_true, beq_iff_eq, reduceCtorEq, false_iff, not_or]
    rw [show ":quit" = ":" ++ "quit" by decide, show ":q" = ":" ++ "q" by decide]
    exact ⟨hword _, hword _⟩

theorem quits_token (line : List UInt8) : quits (token line) = quits line := by
  unfold quits
  rw [trimChars_token]

/-- The lines that the loop finds: an empty one at the end is none. -/
def tokens : List (List UInt8) → List (List UInt8)
  | [] => []
  | [line] => if line.length = 0 then [] else [token line]
  | line :: next :: rest => token line :: tokens (next :: rest)

theorem splitLines_append (line : List UInt8) (hline : 10 ∉ line) :
    ∀ (rest before : List UInt8) (size : Nat) (done : List (List UInt8)),
      size + line.length < lineLimit →
      splitLines (line ++ rest) before size done
        = splitLines rest (line.reverse ++ before) (size + line.length) done := by
  induction line with
  | nil =>
    intro rest before size done _
    rfl
  | cons b line ih =>
    intro rest before size done hsize
    have hb : b ≠ 10 := fun h => hline (h ▸ List.mem_cons_self ..)
    have hshort : ¬ size + 1 ≥ lineLimit := by
      simp only [List.length_cons] at hsize
      omega
    have hrest := ih (fun h => hline (List.mem_cons_of_mem _ h)) rest (b :: before) (size + 1) done
      (by simp only [List.length_cons] at hsize; omega)
    rw [List.cons_append, splitLines, if_neg hshort, hrest]
    · simp [Nat.add_assoc, Nat.add_comm 1]
    · exact hb

theorem splitLines_intercalate (lines : List (List UInt8))
    (hlines : ∀ line ∈ lines, 10 ∉ line ∧ line.length < lineLimit) :
    ∀ done, splitLines (List.intercalate [10] lines) [] 0 done
      = (done.reverse ++ tokens lines, false) := by
  induction lines with
  | nil =>
    intro done
    simp [splitLines, tokens]
  | cons line rest ih =>
    intro done
    cases rest with
    | nil =>
      obtain ⟨hten, hlimit⟩ := hlines line (List.mem_singleton_self _)
      have h := splitLines_append line hten [] [] 0 done (by omega)
      rw [List.append_nil, List.append_nil, Nat.zero_add] at h
      rw [List.intercalate_singleton, h, splitLines, tokens]
      by_cases hempty : line.length = 0
      · rw [if_pos hempty, if_pos hempty, List.append_nil]
      · rw [if_neg hempty, if_neg hempty, List.reverse_cons]
        rfl
    | cons next rest =>
      obtain ⟨hten, hlimit⟩ := hlines line (List.mem_cons_self ..)
      have h := splitLines_append line hten ([10] ++ List.intercalate [10] (next :: rest)) [] 0 done
        (by omega)
      rw [List.intercalate_cons_cons, List.append_assoc, h, List.append_nil]
      change splitLines (List.intercalate [10] (next :: rest)) [] 0 (token line :: done) = _
      rw [ih (fun l hl => hlines l (List.mem_cons_of_mem _ hl)), tokens, List.reverse_cons,
        List.append_assoc]
      rfl

/-! ## Idle sessions -/

theorem handlers_blind {m : Machine Printed} (hm : m.handlers = handlers) : m.Blind := by
  intro k id vs
  rw [hm]
  unfold handlers
  match vs with
  | [x] =>
    simp only [List.map_cons, List.map_nil, Value.display_shift]
    exact .get fun _ => .put .reply
  | [] => exact .reply
  | _ :: _ :: _ => exact .reply

theorem handlers_tidy {m : Machine Printed} (hm : m.handlers = handlers) : m.Tidy := by
  intro id vs
  rw [hm]
  unfold handlers
  split
  · exact fun _ => rfl
  · rfl

/-- The session between two lines, with a free handle of its own. -/
def idle (s : Session Printed) (k : Handle) : Session Printed := { s with world := ⟨[], [], k, []⟩ }

theorem resultReport_shift (k : Handle) (r : Except Failure Value) :
    resultReport (r.map (Value.shift k)) = resultReport r := by
  cases r with
  | error f => rfl
  | ok v =>
    change (if (v.shift k).isNone then _ else _) = _
    rw [Value.isNone_shift, Value.inspect_shift]
    rfl

theorem evaluate_eventually {s t : Session Printed} {n : Nat} {e : Expr}
    {r : Except Failure Value} (h : s.evaluate n e = some (r, t)) :
    ∀ᶠ n in atTop, s.evaluate n e = some (r, t) := by
  obtain ⟨⟨r', w⟩, hrun, heq⟩ := Option.map_eq_some_iff.1 h
  obtain ⟨x, u, hx, rfl, rfl⟩ := Machine.apart_eq_some.1 hrun
  have hcomplete := ((Machine.sound s.machine n).eval hx).complete
  refine hcomplete.mono fun n hn => ?_
  refine Option.map_eq_some_iff.2 ⟨_, Machine.apart_eq_some.2 ⟨x, u, hn, rfl, rfl⟩, heq⟩

/-- An evaluation in one idle session is, up to handles, the same in all of them. -/
theorem evaluate_idle {s t : Session Printed} (hs : s.machine.handlers = handlers) {n : Nat}
    {e : Expr} {r : Except Failure Value} (h : (idle s 0).evaluate n e = some (r, t)) (k : Handle) :
    ∃ t', (∀ᶠ n in atTop,
        (idle s k).evaluate n e = some (r.map (Value.shift k), t')) ∧
      (takeReport t').1 = (takeReport t).1 ∧ ∃ k', (takeReport t').2 = idle s k' := by
  obtain ⟨⟨r', w⟩, hrun, heq⟩ := Option.map_eq_some_iff.1 h
  cases heq
  obtain ⟨x, u, hx, rfl, rfl⟩ := Machine.apart_eq_some.1 hrun
  have he : Machine.Evals s.machine e (State.start (idle s 0).world) x u :=
    (Machine.sound s.machine n).eval hx
  -- what is executing is as before, so nothing is; what the run shifts to is the run at `k`
  have hheld : u.world.held = [] := (he.kept (handlers_tidy hs)).held
  have hshift := he.shifted (handlers_blind hs) k
  have hstart : (State.start (idle s 0).world).shift k = State.start (idle s k).world := by
    simp [State.start, State.shift, idle, World.shift, Scopes.shift, Scopes.empty]
  rw [hstart] at hshift
  refine ⟨{ s with world := u.world.shift k }, ?_, rfl, u.world.fresh + k, ?_⟩
  · refine hshift.complete.mono fun n hn => ?_
    have hrun : s.machine.evaluate n e (idle s k).world
        = some ((settle u.calls.reverse x).map (Value.shift k), u.world.shift k) :=
      Machine.apart_eq_some.2 ⟨_, _, hn, (settle_shift ..).symm, rfl⟩
    exact Option.map_eq_some_iff.2 ⟨_, hrun, rfl⟩
  · simp [takeReport, Session.takeEvents, idle, World.shift, hheld]

theorem takeTurn_eventually {s : Session Printed} {n : Nat} {line : List UInt8}
    {x : Option (Report × Session Printed)} (h : takeTurn s n line = some x) :
    ∀ᶠ n in atTop, takeTurn s n line = some x := by
  unfold takeTurn at h ⊢
  cases hturn : Turn.ofLine line with
  | skip =>
    simp only [hturn] at h ⊢
    exact .of_forall fun _ => h
  | quit =>
    simp only [hturn] at h ⊢
    exact .of_forall fun _ => h
  | unknown =>
    simp only [hturn] at h ⊢
    exact .of_forall fun _ => h
  | document text =>
    simp only [hturn, evaluateDocument] at h ⊢
    cases hread : Format.json.readExpr (Text.bytes text) with
    | error e =>
      simp only [hread] at h ⊢
      exact .of_forall fun _ => h
    | ok e =>
      simp only [hread] at h ⊢
      cases heval : s.evaluate n e with
      | none => simp [heval] at h
      | some p =>
        rw [heval] at h
        refine (evaluate_eventually heval).mono fun k hk => ?_
        rw [hk]
        exact h

/-- A line gives the same report in every idle session, and leaves it idle. -/
theorem takeTurn_idle {s t : Session Printed} (hs : s.machine.handlers = handlers) {n : Nat}
    {line : List UInt8} {report : Report}
    (h : takeTurn (idle s 0) n line = some (some (report, t))) (k : Handle) :
    ∃ k', ∀ᶠ n in atTop, takeTurn (idle s k) n line = some (some (report, idle s k')) := by
  unfold takeTurn at h ⊢
  cases hturn : Turn.ofLine line with
  | quit => simp [hturn] at h
  | skip =>
    simp only [hturn, Option.some.injEq, Prod.mk.injEq] at h ⊢
    exact ⟨k, .of_forall fun _ => ⟨h.1, rfl⟩⟩
  | unknown =>
    simp only [hturn, Option.some.injEq, Prod.mk.injEq] at h ⊢
    exact ⟨k, .of_forall fun _ => ⟨h.1, rfl⟩⟩
  | document text =>
    simp only [hturn, evaluateDocument] at h ⊢
    cases hread : Format.json.readExpr (Text.bytes text) with
    | error e =>
      simp only [hread, Option.map_some, Option.some.injEq, Prod.mk.injEq] at h ⊢
      exact ⟨k, .of_forall fun _ => ⟨h.1, rfl⟩⟩
    | ok e =>
      simp only [hread] at h ⊢
      cases heval : (idle s 0).evaluate n e with
      | none => simp [heval] at h
      | some p =>
        obtain ⟨r, u⟩ := p
        obtain ⟨t', hruns, hsame, k', hidle⟩ := evaluate_idle hs heval k
        rw [heval] at h
        simp only [reportOn, Option.bind_eq_bind, Option.bind_some, Option.pure_def,
          Option.map_some, Option.some.injEq, Prod.mk.injEq] at h
        refine ⟨k', hruns.mono fun n hn => ?_⟩
        rw [hn]
        simp only [reportOn, Option.bind_eq_bind, Option.bind_some, Option.pure_def,
          Option.map_some, Option.some.injEq, Prod.mk.injEq]
        rw [hsame, resultReport_shift]
        exact ⟨h.1, hidle⟩

theorem takeTurn_quit {s : Session Printed} {n : Nat} {line : List UInt8} :
    takeTurn s n line = some none ↔ quits line = true := by
  rw [← ofLine_quit_iff]
  unfold takeTurn
  cases Turn.ofLine line <;> simp

/-! ## The loop -/

theorem Report.append_empty (a : Report) : a ++ Report.empty = a :=
  congrArg₂ Report.mk (List.append_nil _) (List.append_nil _)

theorem Report.append_assoc (a b c : Report) : a ++ b ++ c = a ++ (b ++ c) :=
  congrArg₂ Report.mk (List.append_assoc ..) (List.append_assoc ..)

theorem joinReports_cons (report : Report) (done : List Report) :
    joinReports (report :: done) = joinReports done ++ report := by
  have hout : (report :: done).reverse.flatMap (·.out) = done.reverse.flatMap (·.out) ++ report.out := by
    simp
  have herr : (report :: done).reverse.flatMap (·.err) = done.reverse.flatMap (·.err) ++ report.err := by
    simp
  exact congrArg₂ Report.mk hout herr

theorem tokens_cons (line : List UInt8) (rest : List (List UInt8)) :
    tokens (line :: rest) = token line :: tokens rest ∨
      line = [] ∧ rest = [] ∧ tokens (line :: rest) = [] := by
  cases rest with
  | cons next rest => exact .inl rfl
  | nil =>
    rw [tokens]
    by_cases hline : line.length = 0
    · exact .inr ⟨List.eq_nil_of_length_eq_zero hline, rfl, if_pos hline⟩
    · exact .inl (if_neg hline)

theorem runLoop_eq {lines : List (List UInt8)}
    (hlines : ∀ line ∈ lines, 10 ∉ line ∧ line.length < lineLimit) (s : Session Printed) (n : Nat) :
    runLoop s n (List.intercalate [10] lines)
      = (takeTurns n (tokens lines) s []).map fun p => .done (joinReports p.1) := by
  unfold runLoop
  rw [splitLines_intercalate lines hlines, List.reverse_nil, List.nil_append]
  dsimp only
  cases takeTurns n (tokens lines) s [] <;> rfl

/-- What a line gives by itself it gives in every idle session. -/
theorem runLoop_alone {s : Session Printed} (hs : s.machine.handlers = handlers)
    {line : List UInt8} (hline : 10 ∉ line ∧ line.length < lineLimit) (hquits : quits line = false)
    {n : Nat} {o : Outcome} (h : runLoop (idle s 0) n line = some o) :
    ∀ k, ∃ k', ∀ᶠ n in atTop,
      takeTurn (idle s k) n (token line) = some (some (o.report, idle s k')) := by
  have heq := runLoop_eq (List.forall_mem_singleton.2 hline) (idle s 0) n
  rw [List.intercalate_singleton, h] at heq
  obtain htokens | ⟨rfl, -, htokens⟩ := tokens_cons line []
  · rw [htokens, tokens, takeTurns] at heq
    cases hturn : takeTurn (idle s 0) n (token line) with
    | none => simp [hturn] at heq
    | some turn =>
      cases turn with
      | none =>
        rw [takeTurn_quit, quits_token, hquits] at hturn
        cases hturn
      | some p =>
        obtain ⟨report, t⟩ := p
        simp only [hturn, takeTurns, Option.map_some, Option.some.injEq] at heq
        have hreport : o.report = report := by
          rw [heq]
          simp [Outcome.done, joinReports]
        rw [hreport]
        exact takeTurn_idle hs hturn
  · rw [htokens, takeTurns] at heq
    cases heq
    exact fun k => ⟨k, .of_forall fun _ => rfl⟩

/-- The lines up to the one that ends the loop. -/
def beforeQuit (lines : List (List UInt8)) : List (List UInt8) := lines.takeWhile (!quits ·)

/-- What the lines print by themselves, in their order. -/
def printedAlone (alone : List UInt8 → Outcome) (lines : List (List UInt8)) : Report :=
  ⟨lines.flatMap (alone · |>.report.out), lines.flatMap (alone · |>.report.err)⟩

theorem takeTurns_alone {s : Session Printed} (hs : s.machine.handlers = handlers)
    (alone : List UInt8 → Outcome) (lines : List (List UInt8))
    (hlines : ∀ line ∈ lines, 10 ∉ line ∧ line.length < lineLimit)
    (halone : ∀ line ∈ beforeQuit lines, ∃ n, runLoop (idle s 0) n line = some (alone line)) :
    ∀ k done, ∃ reports ended,
      (∀ᶠ n in atTop, takeTurns n (tokens lines) (idle s k) done = some (reports, ended)) ∧
      joinReports reports = joinReports done ++ printedAlone alone (beforeQuit lines) := by
  induction lines with
  | nil =>
    intro k done
    exact ⟨done, false, .of_forall fun _ => rfl, (Report.append_empty _).symm⟩
  | cons line rest ih =>
    intro k done
    have hline := hlines line (List.mem_cons_self ..)
    by_cases hquits : quits line = true
    · have hbefore : beforeQuit (line :: rest) = [] := by simp [beforeQuit, hquits]
      obtain htokens | ⟨rfl, -, -⟩ := tokens_cons line rest
      · refine ⟨done, true, .of_forall fun n => ?_, ?_⟩
        · have hturn : takeTurn (idle s k) n (token line) = some none := by
            rw [takeTurn_quit, quits_token, hquits]
          rw [htokens, takeTurns, hturn]
        · rw [hbefore]
          exact (Report.append_empty _).symm
      · exact absurd hquits (by decide)
    · have hbefore : beforeQuit (line :: rest) = line :: beforeQuit rest := by
        simp [beforeQuit, hquits]
      rw [hbefore] at halone
      obtain ⟨n, hn⟩ := halone line (List.mem_cons_self ..)
      have hturn := runLoop_alone hs hline (Bool.eq_false_of_not_eq_true hquits) hn
      have hprinted : printedAlone alone (line :: beforeQuit rest)
          = (alone line).report ++ printedAlone alone (beforeQuit rest) := rfl
      obtain htokens | ⟨rfl, rfl, htokens⟩ := tokens_cons line rest
      · obtain ⟨k', hk'⟩ := hturn k
        obtain ⟨reports, ended, hrest, hjoin⟩ :=
          ih (fun l hl => hlines l (List.mem_cons_of_mem _ hl))
            (fun l hl => halone l (List.mem_cons_of_mem _ hl)) k' ((alone line).report :: done)
        refine ⟨reports, ended, ?_, ?_⟩
        · filter_upwards [hk', hrest] with n hfirst hlater
          rw [htokens, takeTurns, hfirst]
          exact hlater
        · rw [hjoin, joinReports_cons, hbefore, hprinted, Report.append_assoc]
      · -- an empty line at the end is not looked at, and prints nothing by itself
        have hempty : alone [] = .done (joinReports []) := Option.some.inj hn.symm
        refine ⟨done, false, .of_forall fun n => ?_, ?_⟩
        · rw [htokens, takeTurns]
        · rw [hbefore, hprinted, hempty]
          exact (Report.append_empty _).symm

theorem takeTurns_eventually (lines : List (List UInt8)) :
    ∀ {s : Session Printed} {n : Nat} {done : List Report} {x : List Report × Bool},
      takeTurns n lines s done = some x → ∀ᶠ n in atTop, takeTurns n lines s done = some x := by
  induction lines with
  | nil =>
    intro s n done x h
    exact .of_forall fun _ => h
  | cons line rest ih =>
    intro s n done x h
    rw [takeTurns] at h
    cases hturn : takeTurn s n line with
    | none => simp [hturn] at h
    | some turn =>
      have hlater := takeTurn_eventually hturn
      rw [hturn] at h
      cases turn with
      | none =>
        refine hlater.mono fun n hn => ?_
        rw [takeTurns, hn]
        exact h
      | some p =>
        filter_upwards [hlater, ih h] with n hn hrest
        rw [takeTurns, hn]
        exact hrest

theorem sessionOf_idle (traced : Bool) (p : Option Package.Program) :
    (sessionOf traced p).machine.handlers = handlers ∧
      idle (sessionOf traced p) 0 = sessionOf traced p := by
  suffices ∀ (modules : List Package.SourceModule) (s : Session Printed),
      s.machine.handlers = handlers ∧ idle s 0 = s →
      let t := modules.foldl (fun s m => s.load m.name (some m.tree)) s
      t.machine.handlers = handlers ∧ idle t 0 = t from
    this _ (freshSession traced) ⟨rfl, rfl⟩
  intro modules
  induction modules with
  | nil => exact fun s hs => hs
  | cons m modules ih =>
    rintro s ⟨hhandlers, hidle⟩
    refine ih _ ⟨hhandlers, ?_⟩
    exact congrArg (Session.load · m.name (some m.tree)) hidle

/-- On lines that are not too long, and that each come to an end by themselves, the loop prints one
after the other what every line prints by itself in a session of its own, up to the first line that
asks to quit, and ends well. No line has an effect on a later one, however it ends. -/
theorem loop_lines_isolated (traced : Bool) (p : Option Package.Program)
    (lines : List (List UInt8)) (alone : List UInt8 → Outcome)
    (hlines : ∀ line ∈ lines, 10 ∉ line ∧ line.length < lineLimit)
    (halone : ∀ line ∈ beforeQuit lines,
      ∃ fuel, runLoop (sessionOf traced p) fuel line = some (alone line)) :
    let whole : Outcome := ⟨0, ⟨(beforeQuit lines).flatMap fun line => (alone line).report.out,
      (beforeQuit lines).flatMap fun line => (alone line).report.err⟩⟩
    (∀ᶠ fuel in atTop,
      runLoop (sessionOf traced p) fuel (List.intercalate [10] lines) = some whole) ∧
    ∀ fuel o, runLoop (sessionOf traced p) fuel (List.intercalate [10] lines) = some o →
      o = whole := by
  intro whole
  obtain ⟨hhandlers, hidle⟩ := sessionOf_idle traced p
  rw [← hidle] at halone ⊢
  obtain ⟨reports, ended, hturns, hjoin⟩ :=
    takeTurns_alone hhandlers alone lines hlines halone 0 []
  have hwhole : ∀ᶠ fuel in atTop, runLoop (idle (sessionOf traced p) 0) fuel
      (List.intercalate [10] lines) = some whole := by
    refine hturns.mono fun n hn => ?_
    rw [runLoop_eq hlines, hn, Option.map_some, hjoin]
    rfl
  refine ⟨hwhole, fun fuel o ho => ?_⟩
  rw [runLoop_eq hlines] at ho
  obtain ⟨x, hx, hxo⟩ := Option.map_eq_some_iff.1 ho
  obtain ⟨n, hn, hn'⟩ := ((takeTurns_eventually _ hx).and hwhole).exists
  rw [runLoop_eq hlines, hn, Option.map_some, hxo] at hn'
  exact Option.some.inj hn'

/-! An instance: one line calls `m.f`, which calls `m.g`, which fails after it has printed; lists are
made before and after it, other lines are no document or no command, and one asks to quit. -/

def failing : Package.Program where
  manifest := ⟨"lorgn.yml", "p", "", [], none, [("m", "m.json")], []⟩
  modules := [⟨"m", "p", "m.json", ⟨[
    .define ⟨"f", [], some [.call ⟨"m", "g"⟩ []]⟩,
    .define ⟨"g", [], some [.call ⟨"std", "print"⟩ [.list []], .brk .absent]⟩]⟩⟩]
  dependencies := []

def failingLines : List (List UInt8) := [
  "\x7b\"type\":\"ListLiteral\"\x7d",
  "\x7b\"type\":\"FunctionCall\",\"path\":\x7b\"module\":\"m\",\"item\":\"f\"\x7d\x7d\r",
  "\x7b", ":x", "",
  "\x7b\"type\":\"ListLiteral\"\x7d",
  " :q \r", "\x7b\"type\":\"ListLiteral\"\x7d"].map Text.bytes

theorem loop_lines_isolated_failing :
    ∃ o, (∀ᶠ fuel in atTop, runLoop (sessionOf false (some failing)) fuel
        (List.intercalate [10] failingLines) = some o) ∧
      o.code = 0 ∧ o.report.out = ["[]", "[]", "[]"] ∧
      o.report.err.map Line.render =
        ["runtime: ControlFlowError: break outside of loop in function 'g'\n" ++
          "note: in call to m.g\nnote: in call to m.f",
        "decode: json: unexpected EOF", "unknown command. Type :quit to exit."] := by
  let alone := fun line => (runLoop (sessionOf false (some failing)) 20 line).getD (.done .empty)
  have hlines : ∀ line ∈ failingLines, 10 ∉ line ∧ line.length < lineLimit := by decide +kernel
  have hends : ∀ line ∈ beforeQuit failingLines,
      (runLoop (sessionOf false (some failing)) 20 line).isSome := by decide +kernel
  have halone : ∀ line ∈ beforeQuit failingLines,
      ∃ fuel, runLoop (sessionOf false (some failing)) fuel line = some (alone line) := by
    intro line hline
    obtain ⟨o, ho⟩ := Option.isSome_iff_exists.1 (hends line hline)
    exact ⟨20, by simp only [alone, ho, Option.getD_some]⟩
  have h := loop_lines_isolated false (some failing) failingLines alone hlines halone
  exact ⟨_, h.1, rfl, by decide +kernel, by decide +kernel⟩

end Command

end Arbor
