import Arbor.Proofs.Eval.Soundness

/-!
Handles are names.

A run that starts with another free handle gives other handles to the containers it makes, and does
the same otherwise. `Value.shift k` adds `k` to all handles of a value, and a run is carried over to
the shifted state by the same rules (`Evals.shifted`). It takes handlers that treat handles as names
too (`Machine.Blind`). Texts of values do not show handles, and neither do failures nor the trace.
-/

set_option autoImplicit false

namespace Arbor

/-! ## Tables -/

namespace Table

universe u v

variable {α : Type u} {β : Type v} (g : α → β)

/-- The table with a function applied to its values. -/
def mapValues (t : Table α) : Table β := t.map fun p => (p.1, g p.2)

theorem find?_mapValues (t : Table α) (key : String) :
    find? (mapValues g t) key = (find? t key).map g := by
  induction t with
  | nil => rfl
  | cons p t ih =>
    change find? ((p.1, g p.2) :: mapValues g t) key = (find? (p :: t) key).map g
    unfold find?
    split
    · rfl
    · exact ih

theorem mapValues_insert (t : Table α) (key : String) (x : α) :
    mapValues g (insert t key x) = insert (mapValues g t) key (g x) := by
  induction t with
  | nil => rfl
  | cons p t ih =>
    obtain ⟨k, y⟩ := p
    change mapValues g (insert ((k, y) :: t) key x) = insert ((k, g y) :: mapValues g t) key (g x)
    unfold insert
    split
    · rfl
    · split
      · rfl
      · exact congrArg ((k, g y) :: ·) ih

theorem mapValues_ofPairs (pairs : List (String × α)) :
    mapValues g (ofPairs pairs) = ofPairs (mapValues g pairs) := by
  suffices ∀ t : Table α, mapValues g (pairs.foldl (fun t p => insert t p.1 p.2) t)
      = (mapValues g pairs).foldl (fun t p => insert t p.1 p.2) (mapValues g t) from this []
  induction pairs with
  | nil => exact fun t => rfl
  | cons p pairs ih =>
    intro t
    rw [List.foldl_cons, ih, mapValues_insert]
    rfl

theorem mapValues_zip (names : List String) (xs : List α) :
    mapValues g (names.zip xs) = names.zip (xs.map g) := by
  rw [List.zip_map_right]
  rfl

end Table

variable {σ α : Type} {k : Handle}

/-! ## Values -/

namespace Value

mutual

/-- The value with `k` added to all handles in it. -/
def shift (k : Handle) : Value → Value
  | string x => string x
  | integer x => integer x
  | float x => float x
  | bool x => bool x
  | none => none
  | list h es => list (h + k) (shiftAll k es)
  | object h fs => object (h + k) (shiftFields k fs)
  | missing => missing

def shiftAll (k : Handle) : List Value → List Value
  | [] => []
  | v :: vs => shift k v :: shiftAll k vs

def shiftFields (k : Handle) : List (String × Value) → List (String × Value)
  | [] => []
  | (key, v) :: fs => (key, shift k v) :: shiftFields k fs

end

theorem shiftAll_eq (k : Handle) (vs : List Value) : shiftAll k vs = vs.map (shift k) := by
  induction vs with
  | nil => rfl
  | cons v vs ih => rw [shiftAll, ih, List.map_cons]

theorem shiftFields_eq (k : Handle) (fs : List (String × Value)) :
    shiftFields k fs = Table.mapValues (shift k) fs := by
  induction fs with
  | nil => rfl
  | cons p fs ih =>
    obtain ⟨key, v⟩ := p
    rw [shiftFields, ih]
    rfl

theorem shift_list (k h : Handle) (es : List Value) :
    (list h es).shift k = list (h + k) (es.map (shift k)) := by
  rw [shift, shiftAll_eq]

theorem shift_object (k h : Handle) (fs : Table Value) :
    (object h fs).shift k = object (h + k) (Table.mapValues (shift k) fs) := by
  rw [shift, shiftFields_eq]

mutual

theorem inspect_shift (k : Handle) : ∀ v : Value, (v.shift k).inspect = v.inspect
  | string _ | integer _ | float _ | none | missing => rfl
  | bool b => by cases b <;> rfl
  | list h es => by rw [shift, inspect, inspect, inspectElements_shift]
  | object h fs => by rw [shift, inspect, inspect, inspectFields_shift]

theorem inspectElements_shift (k : Handle) : ∀ vs : List Value,
    inspectElements (shiftAll k vs) = inspectElements vs
  | [] => rfl
  | v :: vs => by
    rw [shiftAll, inspectElements, inspectElements, inspect_shift, inspectElements_shift]

theorem inspectFields_shift (k : Handle) : ∀ fs : List (String × Value),
    inspectFields (shiftFields k fs) = inspectFields fs
  | [] => rfl
  | (key, v) :: fs => by
    rw [shiftFields, inspectFields, inspectFields, inspect_shift, inspectFields_shift]

end

theorem display_shift (k : Handle) (v : Value) : (v.shift k).display = v.display := by
  cases v with
  | string x => rfl
  | _ => exact inspect_shift k _

theorem kind?_shift (k : Handle) (v : Value) : (v.shift k).kind? = v.kind? := by
  cases v <;> rfl

theorem mismatch_shift (k : Handle) (v : Value) (expected : Kind) (context : String) :
    mismatch expected (v.shift k) context = mismatch expected v context := by
  unfold mismatch kindText
  rw [kind?_shift]

theorem orNone_shift (k : Handle) (v : Value) : (v.shift k).orNone = v.orNone.shift k := by
  cases v <;> rfl

theorem isNone_shift (k : Handle) (v : Value) : (v.shift k).isNone = v.isNone := by
  cases v <;> rfl

theorem getLastD_shift (k : Handle) (vs : List Value) :
    (vs.map (shift k)).getLastD .none = (vs.getLastD .none).shift k := by
  rw [List.getLastD_eq_getLast?, List.getLastD_eq_getLast?, List.getLast?_map]
  cases vs.getLast? <;> rfl

end Value

/-! ## States -/

def Frame.shift (k : Handle) (f : Frame) : Frame :=
  ⟨Table.mapValues (Value.shift k) f.bindings, f.bubbles⟩

def Scopes.shift (k : Handle) (s : Scopes) : Scopes := ⟨s.frames.map (Frame.shift k)⟩

def World.shift (k : Handle) (w : World σ) : World σ := { w with fresh := w.fresh + k }

def State.shift (k : Handle) (s : State σ) : State σ :=
  ⟨s.scopes.shift k, s.calls, s.world.shift k⟩

def Stop.shift (k : Handle) : Stop → Stop
  | .ret v => .ret (v.shift k)
  | .brk v => .brk (v.shift k)
  | .fail f => .fail f

theorem Frame.seed_shift (k : Handle) (names : List String) (vs : List Value) (bubbles : Bool) :
    (Frame.seed names vs bubbles).shift k = Frame.seed names (vs.map (Value.shift k)) bubbles := by
  unfold Frame.seed Frame.shift
  rw [Table.mapValues_ofPairs, Table.mapValues_zip]

theorem Scopes.search_shift (k : Handle) (name : String) (frames : List Frame) :
    search name (frames.map (Frame.shift k)) = (search name frames).map (Value.shift k) := by
  induction frames with
  | nil => rfl
  | cons f below ih =>
    have hget : (f.shift k).get? name = (f.get? name).map (Value.shift k) :=
      Table.find?_mapValues ..
    rw [List.map_cons, search, search, hget, ih]
    cases f.get? name with
    | some v => rfl
    | none =>
      change (if f.bubbles then _ else _) = _
      cases f.bubbles <;> rfl

theorem Scopes.lookup?_shift (k : Handle) (s : Scopes) (name : String) :
    (s.shift k).lookup? name = (s.lookup? name).map (Value.shift k) :=
  search_shift k name s.frames

theorem Scopes.insert?_shift (k : Handle) (s : Scopes) (name : String) (v : Value) :
    (s.shift k).insert? name (v.shift k) = (s.insert? name v).map (Scopes.shift k) := by
  obtain ⟨frames⟩ := s
  cases frames with
  | nil => rfl
  | cons f below =>
    have hf : (f.insert name v).shift k = (f.shift k).insert name (v.shift k) :=
      congrArg (Frame.mk · f.bubbles) (Table.mapValues_insert ..)
    exact congrArg (fun g => some (Scopes.mk (g :: below.map (Frame.shift k)))) hf.symm

theorem State.push_shift (k : Handle) (s : State σ) (names : List String) (vs : List Value) :
    (s.push (Frame.seed names vs false)).shift k
      = (s.shift k).push (Frame.seed names (vs.map (Value.shift k)) false) := by
  rw [← Frame.seed_shift]
  rfl

theorem State.pop_shift (k : Handle) (s : State σ) : s.pop.shift k = (s.shift k).pop := by
  obtain ⟨⟨frames⟩, calls, w⟩ := s
  exact congrArg (fun fs => State.mk (Scopes.mk fs) calls (w.shift k)) List.map_tail

theorem World.skipHandle_shift (k : Handle) (w : World σ) :
    w.skipHandle.shift k = (w.shift k).skipHandle := by
  unfold World.skipHandle World.shift
  rw [Nat.add_right_comm]

theorem State.skipHandle_shift (k : Handle) (s : State σ) :
    s.skipHandle.shift k = (s.shift k).skipHandle :=
  congrArg (State.mk (s.scopes.shift k) s.calls) (World.skipHandle_shift k s.world)

/-! ## Ends -/

/-- The end of a run with `k` added to all handles, those in a plain end by the function given. -/
def shiftEnd (k : Handle) (g : α → α) : Except Stop α → Except Stop α
  | .ok a => .ok (g a)
  | .error x => .error (x.shift k)

theorem settle_shift (k : Handle) (stack : List Path) (r : Outcome) :
    settle stack (shiftEnd k (Value.shift k) r) = (settle stack r).map (Value.shift k) := by
  match r with
  | .ok v => exact congrArg Except.ok (Value.orNone_shift k v)
  | .error (.ret v) => rfl
  | .error (.brk v) => rfl
  | .error (.fail f) => rfl

/-! ## Handlers -/

/-- The handlers do the same, on values with `k` added to their handles. -/
inductive Action.Shifts (k : Handle) : Action σ → Action σ → Prop where
  | reply {v : Value} : Action.Shifts k (.reply v) (.reply (v.shift k))
  | refuse {f : Failure} : Action.Shifts k (.refuse f) (.refuse f)
  | get {next next' : σ → Action σ} : (∀ host, Action.Shifts k (next host) (next' host)) →
      Action.Shifts k (.get next) (.get next')
  | put {host : σ} {next next' : Action σ} : Action.Shifts k next next' →
      Action.Shifts k (.put host next) (.put host next')
  | list {vs : List Value} {next next' : Value → Action σ} :
      (∀ v, Action.Shifts k (next v) (next' (v.shift k))) →
      Action.Shifts k (.list vs next) (.list (vs.map (Value.shift k)) next')
  | object {fs : Table Value} {next next' : Value → Action σ} :
      (∀ v, Action.Shifts k (next v) (next' (v.shift k))) →
      Action.Shifts k (.object fs next) (.object (Table.mapValues (Value.shift k) fs) next')
  | call {path : Path} {vs : List Value} {next next' : Except Failure Value → Action σ} :
      (∀ r, Action.Shifts k (next r) (next' (r.map (Value.shift k)))) →
      Action.Shifts k (.call path vs next) (.call path (vs.map (Value.shift k)) next')
  | evaluate {e : Expr} {next next' : Except Failure Value → Action σ} :
      (∀ r, Action.Shifts k (next r) (next' (r.map (Value.shift k)))) →
      Action.Shifts k (.evaluate e next) (.evaluate e next')
  | acquire {path : Path} {next next' : Except Cause Function → Action σ} :
      (∀ r, Action.Shifts k (next r) (next' r)) →
      Action.Shifts k (.acquire path next) (.acquire path next')
  | release {f : Function} {next next' : Action σ} : Action.Shifts k next next' →
      Action.Shifts k (.release f next) (.release f next')

namespace Machine

/-- No handler can tell one handle from another. -/
def Blind (m : Machine σ) : Prop :=
  ∀ k id vs, (m.handlers id vs).Shifts k (m.handlers id (vs.map (Value.shift k)))

theorem note_shift (m : Machine σ) (e : Unit → Event) (w : World σ) :
    (m.note e w).shift k = m.note e (w.shift k) := by
  unfold note
  split <;> rfl

theorem enter_shift (m : Machine σ) (path : Path) (f : Function) (arguments : Nat) (held : Held)
    (s : State σ) :
    (m.enter path f arguments held s).shift k = m.enter path f arguments held (s.shift k) :=
  congrArg (State.mk (s.scopes.shift k) (path :: s.calls)) (note_shift ..)

theorem leave_shift (m : Machine σ) (f : Function) (e : Unit → Event) (s : State σ) :
    (m.leave f e s).shift k = m.leave f e (s.shift k) := by
  have hw : { m.note e s.world with held := f.release (m.note e s.world).held }.shift k
      = { m.note e (s.world.shift k) with
          held := f.release (m.note e (s.world.shift k)).held } := by
    rw [← note_shift]
    rfl
  exact congrArg (State.mk (s.scopes.shift k) s.calls.tail) hw

variable {m : Machine σ}

/-! ## Runs -/

mutual

theorem Evals.shifted (hm : m.Blind) (k : Handle) {e : Expr} {s t : State σ} {r : Outcome} :
    Evals m e s r t → Evals m e (s.shift k) (shiftEnd k (Value.shift k) r) (t.shift k)
  | .absent => .absent
  | .emptyBlock => .emptyBlock
  | .empty hb => .empty hb
  | .string => .string
  | .integer => .integer
  | .float => .float
  | .bool => .bool
  | .var hl => .var (by rw [State.shift, Scopes.lookup?_shift, hl]; rfl)
  | .unbound hl => .unbound (by rw [State.shift, Scopes.lookup?_shift, hl]; rfl)
  | .assign he hi =>
    .assign (he.shifted hm k) (by rw [State.shift, Scopes.insert?_shift, hi]; rfl)
  | .assignNowhere he hi =>
    .assignNowhere (he.shifted hm k) (by rw [State.shift, Scopes.insert?_shift, hi]; rfl)
  | .assignStop he => .assignStop (he.shifted hm k)
  | .block hes => by
    rw [shiftEnd, ← Value.getLastD_shift]
    exact .block (hes.shifted hm k)
  | .blockStop hes => .blockStop (hes.shifted hm k)
  | .list hes => by
    rw [shiftEnd, Value.shift_list, State.skipHandle_shift]
    exact .list (hes.shifted hm k)
  | .listStop hes => .listStop (hes.shifted hm k)
  | .map hes => by
    rw [shiftEnd, Value.shift_object, State.skipHandle_shift, Table.mapValues_ofPairs,
      Table.mapValues_zip]
    exact .map (hes.shifted hm k)
  | .mapStop hes => .mapStop (hes.shifted hm k)
  | .call hes hc => .call (hes.shifted hm k) (hc.shifted hm k)
  | .callStop hes => .callStop (hes.shifted hm k)
  | .condTrue ht ha => .condTrue (ht.shifted hm k) (ha.shifted hm k)
  | .condFalse ht hb => .condFalse (ht.shifted hm k) (hb.shifted hm k)
  | .condOther ht hv => by
    rw [← Value.mismatch_shift k]
    exact .condOther (ht.shifted hm k) (by rwa [Value.kind?_shift])
  | .condStop ht => .condStop (ht.shifted hm k)
  | .loopAgain hb hl => .loopAgain (hb.shifted hm k) (hl.shifted hm k)
  | .loopBreak hb => .loopBreak (hb.shifted hm k)
  | .loopReturn hb => .loopReturn (hb.shifted hm k)
  | .loopFail hb => .loopFail (hb.shifted hm k)
  | .ret he => .ret (he.shifted hm k)
  | .retStop he => .retStop (he.shifted hm k)
  | .brk he => .brk (he.shifted hm k)
  | .brkStop he => .brkStop (he.shifted hm k)

theorem InOrder.shifted (hm : m.Blind) (k : Handle) {es : List Expr} {s t : State σ}
    {r : Except Stop (List Value)} : InOrder m es s r t →
      InOrder m es (s.shift k) (shiftEnd k (List.map (Value.shift k)) r) (t.shift k)
  | .nil => .nil
  | .cons he hes => .cons (he.shifted hm k) (hes.shifted hm k)
  | .later he hes => .later (he.shifted hm k) (hes.shifted hm k)
  | .stop he => .stop (he.shifted hm k)

theorem Calls.shifted (hm : m.Blind) (k : Handle) {path : Path} {vs : List Value}
    {s t : State σ} {r : Outcome} : Calls m path vs s r t →
      Calls m path (vs.map (Value.shift k)) (s.shift k) (shiftEnd k (Value.shift k) r) (t.shift k)
  | .unavailable hc => .unavailable hc
  | .returns (v := v) hf ha => by
    have h := ha.shifted hm k
    rw [enter_shift, ← List.length_map (Value.shift k)] at h
    rw [leave_shift, ← Value.inspect_shift k v]
    exact .returns hf h
  | .fails hf ha => by
    have h := ha.shifted hm k
    rw [enter_shift, ← List.length_map (Value.shift k)] at h
    rw [leave_shift]
    exact .fails (show m.registry.acquire path (s.shift k).world.held = _ from hf) h

theorem Applies.shifted (hm : m.Blind) (k : Handle) {name : String} {f : Function}
    {vs : List Value} {s t : State σ} {r : Outcome} : Applies m name f vs s r t →
      Applies m name f (vs.map (Value.shift k)) (s.shift k) (shiftEnd k (Value.shift k) r)
        (t.shift k)
  | .definedArity ha => by
    rw [← List.length_map (Value.shift k)] at ha ⊢
    exact .definedArity ha
  | .bodyless ha => .bodyless (by rwa [List.length_map])
  | .plain ha hes => by
    have h := hes.shifted hm k
    rw [State.push_shift] at h
    rw [State.pop_shift, shiftEnd, ← Value.getLastD_shift]
    exact .plain (by rwa [List.length_map]) h
  | .returned ha hes => by
    have h := hes.shifted hm k
    rw [State.push_shift] at h
    rw [State.pop_shift]
    exact .returned (by rwa [List.length_map]) h
  | .broke ha hes => by
    have h := hes.shifted hm k
    rw [State.push_shift] at h
    rw [State.pop_shift]
    exact .broke (by rwa [List.length_map]) h
  | .failed ha hes => by
    have h := hes.shifted hm k
    rw [State.push_shift] at h
    rw [State.pop_shift]
    exact .failed (by rwa [List.length_map]) h
  | .nativeArity ha => by
    rw [← List.length_map (Value.shift k)] at ha ⊢
    exact .nativeArity ha
  | .unhandled ha => .unhandled (by rwa [List.length_map])
  | .replied ha hp => by
    rw [shiftEnd, ← Value.orNone_shift]
    exact .replied (by rwa [List.length_map]) (hp.shifted hm (hm k _ _))
  | .refused ha hp => .refused (by rwa [List.length_map]) (hp.shifted hm (hm k _ _))
  | .imported => .imported

theorem Performs.shifted (hm : m.Blind) {k : Handle} {a a' : Action σ} {w w' : World σ}
    {r : Except Failure Value} : Performs m a w r w' → a.Shifts k a' →
      Performs m a' (w.shift k) (r.map (Value.shift k)) (w'.shift k)
  | .reply, .reply => .reply
  | .refuse, .refuse => .refuse
  | .get h, .get hn => .get (h.shifted hm (hn _))
  | .put h, .put hn => .put (h.shifted hm hn)
  | .list h, .list hn => by
    have h' := h.shifted hm (hn _)
    rw [World.skipHandle_shift, Value.shift_list] at h'
    exact .list h'
  | .object h, .object hn => by
    have h' := h.shifted hm (hn _)
    rw [World.skipHandle_shift, Value.shift_object] at h'
    exact .object h'
  | .call hc h, .call hn => by
    have h' := h.shifted hm (hn _)
    rw [← settle_shift] at h'
    exact .call (hc.shifted hm k) h'
  | .evaluate he h, .evaluate hn => by
    have h' := h.shifted hm (hn _)
    rw [← settle_shift] at h'
    exact .evaluate (he.shifted hm k) h'
  | .acquire hf h, .acquire hn => .acquire hf (h.shifted hm (hn _))
  | .acquireRefused hc h, .acquire hn => .acquireRefused hc (h.shifted hm (hn _))
  | .release h, .release hn => .release (h.shifted hm hn)

end

end Machine

end Arbor
