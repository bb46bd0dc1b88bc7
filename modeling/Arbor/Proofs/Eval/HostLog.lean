import Arbor.Proofs.Eval.Rules

/-!
The calls of handlers in the order in which they are made.

`Machine.logged` is the machine on a host that writes down the identity and the arguments of every
handler before it begins, the latest first. A handler cannot tell, so each run of a machine is a run
of the logged one (`Evals.logged`), and what is in the log then are the host calls of that run.
-/

set_option autoImplicit false

namespace Arbor

variable {σ : Type}

abbrev HostLog := List (NativeId × List Value)

/-- The handler on a host that carries a log along. -/
def Action.logged : Action σ → Action (σ × HostLog)
  | .reply v => .reply v
  | .refuse f => .refuse f
  | .get next => .get fun p => (next p.1).logged
  | .put host next => .get fun p => .put (host, p.2) next.logged
  | .list vs next => .list vs fun v => (next v).logged
  | .object fs next => .object fs fun v => (next v).logged
  | .call path vs next => .call path vs fun r => (next r).logged
  | .evaluate e next => .evaluate e fun r => (next r).logged
  | .acquire path next => .acquire path fun r => (next r).logged
  | .release f next => .release f next.logged

def World.withLog (w : World σ) (log : HostLog) : World (σ × HostLog) :=
  ⟨(w.host, log), w.held, w.fresh, w.events⟩

def State.withLog (s : State σ) (log : HostLog) : State (σ × HostLog) :=
  ⟨s.scopes, s.calls, s.world.withLog log⟩

theorem State.push_withLog (s : State σ) (f : Frame) (log : HostLog) :
    (s.push f).withLog log = (s.withLog log).push f :=
  rfl

namespace Machine

/-- The machine whose handlers write down what they are called with. -/
def logged (m : Machine σ) : Machine (σ × HostLog) where
  registry := m.registry
  handlers := fun id vs =>
    .get fun p => .put (p.1, (id, vs) :: p.2) (m.handlers id vs).logged
  traced := m.traced

theorem note_withLog (m : Machine σ) (e : Unit → Event) (w : World σ) (log : HostLog) :
    (m.note e w).withLog log = m.logged.note e (w.withLog log) := by
  unfold note
  by_cases h : m.traced
  · rw [if_pos h, if_pos (show m.logged.traced from h)]
    rfl
  · rw [if_neg h, if_neg (show ¬ m.logged.traced from h)]

theorem enter_withLog (m : Machine σ) (path : Path) (f : Function) (k : Nat) (held : Held)
    (s : State σ) (log : HostLog) :
    (m.enter path f k held s).withLog log = m.logged.enter path f k held (s.withLog log) :=
  congrArg (State.mk s.scopes (path :: s.calls)) (note_withLog ..)

theorem leave_withLog (m : Machine σ) (f : Function) (e : Unit → Event) (s : State σ)
    (log : HostLog) : (m.leave f e s).withLog log = m.logged.leave f e (s.withLog log) := by
  have hw : { m.note e s.world with held := f.release (m.note e s.world).held }.withLog log
      = { m.logged.note e (s.world.withLog log) with
          held := f.release (m.logged.note e (s.world.withLog log)).held } := by
    rw [← note_withLog]
    rfl
  exact congrArg (State.mk s.scopes s.calls.tail) hw

variable {m : Machine σ}

mutual

theorem Evals.logged {e : Expr} {s t : State σ} {r : Outcome} (log : HostLog) :
    Evals m e s r t → ∃ log', Evals m.logged e (s.withLog log) r (t.withLog log')
  | .absent => ⟨log, .absent⟩
  | .emptyBlock => ⟨log, .emptyBlock⟩
  | .empty hb => ⟨log, .empty hb⟩
  | .string => ⟨log, .string⟩
  | .integer => ⟨log, .integer⟩
  | .float => ⟨log, .float⟩
  | .bool => ⟨log, .bool⟩
  | .var hl => ⟨log, .var hl⟩
  | .unbound hl => ⟨log, .unbound hl⟩
  | .assign he hi =>
    have ⟨log', h⟩ := he.logged log
    ⟨log', .assign h hi⟩
  | .assignNowhere he hi => (he.logged log).imp fun _ h => .assignNowhere h hi
  | .assignStop he => (he.logged log).imp fun _ h => .assignStop h
  | .block hes => (hes.logged log).imp fun _ h => .block h
  | .blockStop hes => (hes.logged log).imp fun _ h => .blockStop h
  | .list hes => (hes.logged log).imp fun _ h => .list h
  | .listStop hes => (hes.logged log).imp fun _ h => .listStop h
  | .map hes => (hes.logged log).imp fun _ h => .map h
  | .mapStop hes => (hes.logged log).imp fun _ h => .mapStop h
  | .call hes hc =>
    have ⟨log₁, h⟩ := hes.logged log
    (hc.logged log₁).imp fun _ h' => .call h h'
  | .callStop hes => (hes.logged log).imp fun _ h => .callStop h
  | .condTrue ht ha =>
    have ⟨log₁, h⟩ := ht.logged log
    (ha.logged log₁).imp fun _ h' => .condTrue h h'
  | .condFalse ht hb =>
    have ⟨log₁, h⟩ := ht.logged log
    (hb.logged log₁).imp fun _ h' => .condFalse h h'
  | .condOther ht hv => (ht.logged log).imp fun _ h => .condOther h hv
  | .condStop ht => (ht.logged log).imp fun _ h => .condStop h
  | .loopAgain hb hl =>
    have ⟨log₁, h⟩ := hb.logged log
    (hl.logged log₁).imp fun _ h' => .loopAgain h h'
  | .loopBreak hb => (hb.logged log).imp fun _ h => .loopBreak h
  | .loopReturn hb => (hb.logged log).imp fun _ h => .loopReturn h
  | .loopFail hb => (hb.logged log).imp fun _ h => .loopFail h
  | .ret he => (he.logged log).imp fun _ h => .ret h
  | .retStop he => (he.logged log).imp fun _ h => .retStop h
  | .brk he => (he.logged log).imp fun _ h => .brk h
  | .brkStop he => (he.logged log).imp fun _ h => .brkStop h

theorem InOrder.logged {es : List Expr} {s t : State σ} {r : Except Stop (List Value)}
    (log : HostLog) :
    InOrder m es s r t → ∃ log', InOrder m.logged es (s.withLog log) r (t.withLog log')
  | .nil => ⟨log, .nil⟩
  | .cons he hes =>
    have ⟨log₁, h⟩ := he.logged log
    (hes.logged log₁).imp fun _ h' => .cons h h'
  | .later he hes =>
    have ⟨log₁, h⟩ := he.logged log
    (hes.logged log₁).imp fun _ h' => .later h h'
  | .stop he => (he.logged log).imp fun _ h => .stop h

theorem Calls.logged {path : Path} {vs : List Value} {s t : State σ} {r : Outcome}
    (log : HostLog) :
    Calls m path vs s r t → ∃ log', Calls m.logged path vs (s.withLog log) r (t.withLog log')
  | .unavailable hc => ⟨log, .unavailable hc⟩
  | .returns hf ha => by
    obtain ⟨log', h⟩ := ha.logged log
    rw [enter_withLog] at h
    refine ⟨log', ?_⟩
    rw [leave_withLog]
    exact .returns hf h
  | .fails hf ha => by
    obtain ⟨log', h⟩ := ha.logged log
    rw [enter_withLog] at h
    refine ⟨log', ?_⟩
    rw [leave_withLog]
    exact .fails (show m.logged.registry.acquire path (s.withLog log).world.held = _ from hf) h

theorem Applies.logged {name : String} {f : Function} {vs : List Value} {s t : State σ}
    {r : Outcome} (log : HostLog) : Applies m name f vs s r t →
      ∃ log', Applies m.logged name f vs (s.withLog log) r (t.withLog log')
  | .definedArity ha => ⟨log, .definedArity ha⟩
  | .bodyless ha => ⟨log, .bodyless ha⟩
  | .plain ha hes => by
    obtain ⟨log', h⟩ := hes.logged log
    rw [State.push_withLog] at h
    exact ⟨log', .plain ha h⟩
  | .returned ha hes => by
    obtain ⟨log', h⟩ := hes.logged log
    rw [State.push_withLog] at h
    exact ⟨log', .returned ha h⟩
  | .broke ha hes => by
    obtain ⟨log', h⟩ := hes.logged log
    rw [State.push_withLog] at h
    exact ⟨log', .broke ha h⟩
  | .failed ha hes => by
    obtain ⟨log', h⟩ := hes.logged log
    rw [State.push_withLog] at h
    exact ⟨log', .failed ha h⟩
  | .nativeArity ha => ⟨log, .nativeArity ha⟩
  | .unhandled ha => ⟨log, .unhandled ha⟩
  -- the entry is written before the first step of the handler itself
  | .replied ha hp => (hp.logged (_ :: log)).imp fun _ h => .replied ha (.get (.put h))
  | .refused ha hp => (hp.logged (_ :: log)).imp fun _ h => .refused ha (.get (.put h))
  | .imported => ⟨log, .imported⟩

theorem Performs.logged {a : Action σ} {w w' : World σ} {r : Except Failure Value}
    (log : HostLog) :
    Performs m a w r w' → ∃ log', Performs m.logged a.logged (w.withLog log) r (w'.withLog log')
  | .reply => ⟨log, .reply⟩
  | .refuse => ⟨log, .refuse⟩
  | .get h => (h.logged log).imp fun _ h => .get h
  | .put h => (h.logged log).imp fun _ h => .get (.put h)
  | .list h => (h.logged log).imp fun _ h => .list h
  | .object h => (h.logged log).imp fun _ h => .object h
  | .call hc h =>
    have ⟨log₁, h₁⟩ := hc.logged log
    (h.logged log₁).imp fun _ h' => .call h₁ h'
  | .evaluate he h =>
    have ⟨log₁, h₁⟩ := he.logged log
    (h.logged log₁).imp fun _ h' => .evaluate h₁ h'
  | .acquire hf h => (h.logged log).imp fun _ h => .acquire hf h
  | .acquireRefused hc h => (h.logged log).imp fun _ h => .acquireRefused hc h
  | .release h => (h.logged log).imp fun _ h => .release h

end

end Machine

end Arbor
