import Arbor.Eval.Probe
import Arbor.Proofs.Eval.Agreement
import Arbor.Proofs.Eval.HostLog
import Arbor.Proofs.Eval.Lockstep

/-!
A call does not see its caller.

Whatever frames and active calls a context has, a call in it ends as the same call in a context of
its own does. The two runs are taken in lockstep (`paired`), with the calls of the caller as the
outer calls of one run and no outer calls in the other. The host calls are compared on the machine that
writes them down (`logged`): its log is part of the host state, on which the two runs agree.
-/

set_option autoImplicit false

namespace Arbor

variable {σ : Type}

/-- The end of a call under the calls `outer` and the end of the same call with none above it. -/
inductive SameCall (outer : List Path) : Outcome → Except Failure Value → Prop where
  | value {v : Value} : SameCall outer (.ok v) (.ok v.orNone)
  | failure {stack : List Path} {layers : List Layer} {cause : Option Cause} :
      SameCall outer (.error (.fail ⟨.located (outer ++ stack) :: layers, cause⟩))
        (.error ⟨.located stack :: layers, cause⟩)

namespace Machine

variable {m : Machine σ}

theorem sameCall_of_moved {path : Path} {vs : List Value} {s t : State σ} {r r' : Outcome}
    (h : Calls m path vs s r t) (hr : Moved s.calls [] r r') :
    SameCall s.calls.reverse r (settle [] r') := by
  cases hr with
  | ok => exact .value
  | error hx =>
    obtain ⟨v, hv⟩ | ⟨f, hf, hfail⟩ := h.ends
    · cases hv
    · cases hfail
      cases hx with
      | fail hmoved =>
        cases hmoved with
        | bare hbare => cases hf.symm.trans hbare
        | located => exact .failure

/-- A context and the start of one of its own, seen from a call: the frames play no part. -/
theorem twin_start (s : State σ) :
    Twin (fun _ _ => True) [] s.calls [] s (State.start s.world) where
  scopes := trivial
  calls := rfl
  calls' := rfl
  world := World.Same.refl s.world

theorem callPath_rel_start (m : Machine σ) (n : Nat) (path : Path) (vs : List Value) (s : State σ) :
    Option.Rel (fun p p' => Moved s.calls [] p.1 p'.1 ∧
        Twin (fun _ _ => True) [] s.calls [] p.2 p'.2)
      (m.callPath n path vs s) (m.callPath n path vs (State.start s.world)) :=
  (paired m m.traced n).call (fun _ _ => True) [] s.calls [] path vs s (State.start s.world)
    (twin_start s)

theorem callPath_rel_call (m : Machine σ) (n : Nat) (path : Path) (vs : List Value) (s : State σ) :
    Option.Rel (fun p q => SameCall s.calls.reverse p.1 q.1 ∧ p.2.world.Same q.2)
      (m.callPath n path vs s) (m.call n path vs s.world) := by
  have hrel := callPath_rel_start m n path vs s
  have hsound : ∀ r t, m.callPath n path vs s = some (r, t) → Calls m path vs s r t :=
    fun r t h => (sound m n).call h
  unfold call apart
  generalize m.callPath n path vs s = q, m.callPath n path vs (State.start s.world) = q'
    at hrel hsound
  cases hrel with
  | none => exact .none
  | @some p p' h =>
    obtain ⟨r, t⟩ := p
    obtain ⟨r', t'⟩ := p'
    obtain ⟨hr, ht⟩ := h
    have hcalls : t'.calls.reverse = [] := by rw [show t'.calls = [] from ht.calls']; rfl
    refine .some ⟨?_, ht.world⟩
    rw [hcalls]
    exact sameCall_of_moved (hsound r t rfl) hr

/-- With enough fuel a run and its logged copy are both there, and they end alike. -/
theorem callPath_logged {path : Path} {vs : List Value} {s t : State σ} {r : Outcome}
    (h : Calls m path vs s r t) :
    ∃ log, ∀ᶠ n in Filter.atTop, m.callPath n path vs s = some (r, t) ∧
      m.logged.callPath n path vs (s.withLog []) = some (r, t.withLog log) := by
  obtain ⟨log, hlog⟩ := h.logged []
  exact ⟨log, h.complete.and hlog.complete⟩

/-- The host calls of a call are those of the same call in a context of its own. -/
theorem callPath_same_log {path : Path} {vs : List Value} {s t : State σ} {r : Outcome}
    (h : Calls m path vs s r t) :
    ∃ n log q w, m.callPath n path vs s = some (r, t) ∧ m.call n path vs s.world = some (q, w) ∧
      m.logged.callPath n path vs (s.withLog []) = some (r, t.withLog log) ∧
      m.logged.call n path vs (s.world.withLog []) = some (q, w.withLog log) := by
  obtain ⟨k, hk⟩ := h.complete.exists
  -- the same call at the top, at first with a log of its own
  obtain ⟨⟨r', t'⟩, hk'⟩ : ∃ p, m.callPath k path vs (State.start s.world) = some p := by
    have hrel := callPath_rel_start m k path vs s
    rw [hk] at hrel
    generalize m.callPath k path vs (State.start s.world) = q at hrel
    cases hrel with
    | some h => exact ⟨_, rfl⟩
  have h' : Calls m path vs (State.start s.world) r' t' := (sound m k).call hk'
  obtain ⟨log, hlog⟩ := callPath_logged h
  obtain ⟨log', hlog'⟩ := callPath_logged h'
  obtain ⟨n, ⟨hn, hn₁⟩, hn', hn₁'⟩ := (hlog.and hlog').exists
  -- the logs are in the host states, which agree
  have hsame : log' = log := by
    have hrel := callPath_rel_start m.logged n path vs (s.withLog [])
    rw [show State.start (s.withLog []).world = (State.start s.world).withLog [] from rfl, hn₁,
      hn₁'] at hrel
    cases hrel with
    | some hp => exact congrArg Prod.snd hp.2.world.host
  subst hsame
  refine ⟨n, log', settle t'.calls.reverse r', t'.world, hn, ?_, hn₁, ?_⟩
  · exact apart_eq_some.2 ⟨_, _, hn', rfl, rfl⟩
  · exact apart_eq_some.2 ⟨_, _, hn₁', rfl, rfl⟩

/-- A call ends in every context as it does in a context of its own: with the same value or the same
failure, the calls of the context standing below those recorded on it, in the same world, and after
the same host calls. -/
theorem call_isolated (m : Machine σ) (path : Path) (vs : List Value) (s : State σ) :
    (∀ n, Option.Rel (fun p q => SameCall s.calls.reverse p.1 q.1 ∧ p.2.world.Same q.2)
      (m.callPath n path vs s) (m.call n path vs s.world)) ∧
    ∀ r t, (∃ n, m.callPath n path vs s = some (r, t)) →
      ∃ n log q w, m.callPath n path vs s = some (r, t) ∧
        m.call n path vs s.world = some (q, w) ∧
        m.logged.callPath n path vs (s.withLog []) = some (r, t.withLog log) ∧
        m.logged.call n path vs (s.world.withLog []) = some (q, w.withLog log) := by
  refine ⟨fun n => callPath_rel_call m n path vs s, ?_⟩
  rintro r t ⟨n, h⟩
  exact callPath_same_log ((sound m n).call h)

/-! An instance: `f` makes a host call and then reads `y`, which only its caller has bound. -/

def probed : Machine Probe.Memory where
  registry := (Registry.empty.register Probe.library).register
    ((Library.empty "m").add "f"
      (.defined ["x"] (some [.call ⟨"host", "hit"⟩ [.var "x"], .var "y"])))
  handlers := Probe.handlers
  traced := false

theorem call_isolated_probed :
    let s : State Probe.Memory :=
      ⟨⟨[⟨[("y", .bool true)], true⟩]⟩, [⟨"m", "main"⟩], World.start Probe.Memory.start⟩
    ∃ n t log q w,
      probed.callPath n ⟨"m", "f"⟩ [.string "a"] s = some (.error (.fail
        ⟨[.located [⟨"m", "main"⟩, ⟨"m", "f"⟩]], some (.unboundVariable "y")⟩), t) ∧
      probed.call n ⟨"m", "f"⟩ [.string "a"] s.world = some (q, w) ∧
      probed.logged.callPath n ⟨"m", "f"⟩ [.string "a"] (s.withLog []) = some (.error (.fail
        ⟨[.located [⟨"m", "main"⟩, ⟨"m", "f"⟩]], some (.unboundVariable "y")⟩), t.withLog log) ∧
      probed.logged.call n ⟨"m", "f"⟩ [.string "a"] (s.world.withLog []) = some (q, w.withLog log) := by
  intro s
  obtain ⟨n, log, q, w, h⟩ := (call_isolated probed ⟨"m", "f"⟩ [.string "a"] s).2 _ _ ⟨20, rfl⟩
  exact ⟨n, _, log, q, w, h⟩

end Machine

end Arbor
