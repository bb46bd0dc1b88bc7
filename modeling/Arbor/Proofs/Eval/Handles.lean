import Arbor.Proofs.Eval.Moments
import Arbor.Proofs.Eval.Restoration

/-!
The handles that are open while something runs.

A call holds its function until it has ended, and a handler may hold more functions of its own.
`Opens m a b taken` follows a run from the moment `a` to the moment `b` and lists the native
functions of the handles that it has opened on the way and not closed yet, one entry for each
handle, the latest first. What is in use at `b` is that list on top of what was in use at `a`, and
no function is in it twice (`Opens.invariant`, `Opens.nodup`).
-/

set_option autoImplicit false

namespace Arbor

variable {σ : Type}

/-! ## Taking functions into use -/

theorem Registry.acquire_of_resolve {r : Registry} {path : Path} {f : Function}
    (h : r.resolve path = .ok f) (held : Held) :
    r.acquire path held = (f.acquire path held).map (f, ·) := by
  unfold Registry.acquire
  rw [h]
  cases hf : f.acquire path held <;> simp only [hf] <;> rfl

/-- A function is refused only if it is native and in use. -/
theorem Registry.acquire_error_iff {r : Registry} {path : Path} {f : Function}
    (h : r.resolve path = .ok f) (held : Held) (c : Cause) :
    r.acquire path held = .error c ↔ c = .reentrant path ∧ ∃ id ∈ f.locks, id ∈ held := by
  rw [acquire_of_resolve h]
  cases f with
  | native id arity handled =>
    simp only [Function.acquire, Function.locks, List.mem_singleton, exists_eq_left]
    by_cases hid : id ∈ held
    · rw [if_pos hid]
      constructor
      · intro hc
        cases hc
        exact ⟨rfl, hid⟩
      · rintro ⟨rfl, -⟩
        rfl
    · rw [if_neg hid]
      refine iff_of_false ?_ (hid ·.2)
      intro hc
      cases hc
  | _ =>
    refine iff_of_false ?_ ?_
    · intro hc
      cases hc
    · rintro ⟨-, id, hid, -⟩
      cases hid

theorem Registry.acquire_nodup {r : Registry} {path : Path} {f : Function} {held held' : Held}
    (h : r.acquire path held = .ok (f, held')) (hn : held.Nodup) : held'.Nodup := by
  have heq : held' = f.locks ++ held := Registry.acquire_eq h
  cases f with
  | native id arity handled =>
    have hfree : id ∉ held := by
      intro hid
      have ha := (Registry.acquire_eq_ok_iff.1 h).2
      rw [Function.acquire, if_pos hid] at ha
      cases ha
    rw [heq]
    exact List.nodup_cons.2 ⟨hfree, hn⟩
  | _ =>
    rw [heq]
    exact hn

theorem Function.release_nodup (f : Function) {held : Held} (h : held.Nodup) :
    (f.release held).Nodup := by
  cases f with
  | native id arity handled => exact h.erase id
  | _ => exact h

theorem Function.release_perm (f : Function) {held held' : Held} (h : held.Perm held') :
    (f.release held).Perm (f.release held') := by
  cases f with
  | native id arity handled => exact h.erase id
  | _ => exact h

theorem Function.release_of_mem {f : Function} {id : NativeId} (h : id ∈ f.locks) (held : Held) :
    f.release held = held.erase id := by
  cases f with
  | native id' arity handled =>
    obtain rfl := List.mem_singleton.1 h
    rfl
  | _ => cases h

/-! ## Open handles -/

def Moment.world : Moment σ → World σ
  | .expr _ s => s.world
  | .order _ s => s.world
  | .call _ _ s => s.world
  | .run _ _ _ s => s.world
  | .handler _ _ w => w
  | .act _ w => w

/-- The next step takes no function into use and gives none free. -/
def Moment.Plain : Moment σ → Prop
  | .call .. => False
  | .act (.acquire ..) _ => False
  | .act (.release ..) _ => False
  | _ => True

namespace Machine

variable {m : Machine σ}

/-- The native functions of the handles that the run from `a` has opened and not closed. -/
inductive Opens (m : Machine σ) (a : Moment σ) : Moment σ → Held → Prop where
  | start : Opens m a a []
  | enter {path : Path} {vs : List Value} {s : State σ} {f : Function} {held taken : Held} :
      Opens m a (.call path vs s) taken → m.registry.acquire path s.world.held = .ok (f, held) →
      Opens m a (.run path.item f vs (m.enter path f vs.length held s)) (f.locks ++ taken)
  | acquire {path : Path} {next : Except Cause Function → Action σ} {w : World σ} {f : Function}
      {held taken : Held} :
      Opens m a (.act (.acquire path next) w) taken →
      m.registry.acquire path w.held = .ok (f, held) →
      Opens m a (.act (next (.ok f)) { w with held := held }) (f.locks ++ taken)
  | refused {path : Path} {next : Except Cause Function → Action σ} {w : World σ} {c : Cause}
      {taken : Held} :
      Opens m a (.act (.acquire path next) w) taken → m.registry.acquire path w.held = .error c →
      Opens m a (.act (next (.error c)) w) taken
  | release {f : Function} {next : Action σ} {w : World σ} {taken : Held} :
      Opens m a (.act (.release f next) w) taken →
      Opens m a (.act next { w with held := f.release w.held }) (f.release taken)
  | step {b c : Moment σ} {taken : Held} :
      Opens m a b taken → b.Plain → Leads m b c → Opens m a c taken

theorem opens_of_reaches {a b : Moment σ} (h : Reaches m a b) : ∃ taken, Opens m a b taken := by
  induction h with
  | refl => exact ⟨[], .start⟩
  | tail _ hl ih =>
    obtain ⟨taken, ih⟩ := ih
    cases hl with
    | enter hf => exact ⟨_, .enter ih hf⟩
    | acquire hf => exact ⟨_, .acquire ih hf⟩
    | acquireRefused hc => exact ⟨_, .refused ih hc⟩
    | release => exact ⟨_, .release ih⟩
    | _ => exact ⟨taken, .step ih trivial (by constructor <;> assumption)⟩

/-- What a handler still has to give free is the latest that was taken into use. -/
def Owes : Moment σ → Held → Prop
  | .act x _, taken => ∃ own rest, taken = own ++ rest ∧ x.Frees own
  | _, _ => True

theorem Leads.held_eq (hm : m.Tidy) {b c : Moment σ} (hp : b.Plain) (h : Leads m b c) :
    c.world.held = b.world.held := by
  cases h with
  | enter | acquire | acquireRefused | release => cases hp
  | call hes => exact (hes.kept hm).held
  | whenTrue ht => exact (ht.kept hm).held
  | whenFalse ht => exact (ht.kept hm).held
  | again hb => exact (hb.kept hm).held
  | tail he => exact (he.kept hm).held
  | calledBack hc => exact (hc.restored hm).held
  | evaluated he => exact (he.kept hm).held
  | _ => rfl

theorem Leads.owes (hm : m.Tidy) {b c : Moment σ} {taken : Held} (hp : b.Plain) (h : Leads m b c)
    (hb : Owes b taken) : Owes c taken := by
  cases h with
  | enter | acquire | acquireRefused | release => cases hp
  | handler => exact ⟨[], taken, rfl, hm _ _⟩
  | put =>
    obtain ⟨own, rest, htaken, hfrees⟩ := hb
    exact ⟨own, rest, htaken, hfrees⟩
  | get | makeList | makeObject | calledBack | evaluated =>
    obtain ⟨own, rest, htaken, hfrees⟩ := hb
    exact ⟨own, rest, htaken, hfrees _⟩
  | _ => trivial

theorem Opens.invariant (hm : m.Tidy) {a b : Moment σ} {taken : Held} (ha : Owes a [])
    (h : Opens m a b taken) : b.world.held = taken ++ a.world.held ∧ Owes b taken := by
  induction h with
  | start => exact ⟨rfl, ha⟩
  | enter _ hf ih =>
    refine ⟨?_, trivial⟩
    rw [Moment.world, enter_held, Registry.acquire_eq hf, List.append_assoc]
    exact congrArg _ ih.1
  | @acquire _ _ w f _ taken _ hf ih =>
    obtain ⟨hheld, own, rest, htaken, hfrees⟩ := ih
    refine ⟨?_, f.locks ++ own, rest, ?_, hfrees.2 f⟩
    · rw [Moment.world, Registry.acquire_eq hf, List.append_assoc]
      exact congrArg _ hheld
    · rw [htaken, List.append_assoc]
  | refused _ _ ih =>
    obtain ⟨hheld, own, rest, htaken, hfrees⟩ := ih
    exact ⟨hheld, own, rest, htaken, hfrees.1 _⟩
  | @release f _ w taken _ ih =>
    obtain ⟨hheld, own, rest, htaken, hsub, hfrees⟩ := ih
    have hin : f.locks ⊆ taken := by
      rw [htaken]
      exact List.Subset.trans hsub (List.subset_append_left ..)
    refine ⟨?_, f.release own, rest, ?_, hfrees⟩
    · change f.release w.held = f.release taken ++ a.world.held
      rw [show w.held = taken ++ a.world.held from hheld]
      exact Function.release_append hin a.world.held
    · rw [htaken, Function.release_append hsub]
  | step _ hp hl ih => exact ⟨(hl.held_eq hm hp).trans ih.1, hl.owes hm hp ih.2⟩

theorem Opens.nodup (hm : m.Tidy) {a b : Moment σ} {taken : Held} (ha : a.world.held.Nodup)
    (h : Opens m a b taken) : b.world.held.Nodup := by
  induction h with
  | start => exact ha
  | enter _ hf ih =>
    rw [Moment.world, enter_held]
    exact Registry.acquire_nodup hf ih
  | acquire _ hf ih => exact Registry.acquire_nodup hf ih
  | refused _ _ ih => exact ih
  | release _ ih => exact Function.release_nodup _ ih
  | step _ hp hl ih =>
    rw [hl.held_eq hm hp]
    exact ih

end Machine

end Arbor
