import Equilibrium.Functional.Function
import Equilibrium.Library.Calls
import Equilibrium.Library.Fallible

/-! `Function` objects behave as optional values: each public member does to the contents of the
objects what the same operation does to optional values, and no target or block is lost or given
back twice on the way. -/

namespace Equilibrium.Functional

open Library Library.Fallible World Option
open Content (encode)
open FunctionObject (adopt forget initVTable isSBO)
open Function (update update_self update_of_ne update_eq_self update_idem)

variable {Obj Kind State Args R : Type} {w : World Obj Kind State}
  {c : Obj → Option (Content Kind State)} {x y : Obj} {a : Content Kind State}

theorem Rep.read (h : Rep w c) (hx : c x = some a) : w.read x = .ok a.encode := by
  unfold World.read
  rw [h.objects, hx]
  rfl

variable [DecidableEq Obj]

variable [DecidableEq Kind]

section

variable (h : Rep w c)
include h

omit [DecidableEq Obj] [DecidableEq Kind] in
theorem Rep.object (hx : c x = some a) : w.objects x = some a.encode := by
  rw [h.objects, hx]
  rfl

/-! `Cleanup` -/

theorem Rep.destroyTarget_empty (hx : c x = some .empty) : destroyTarget w x = .ok w := by
  unfold destroyTarget
  rw [h.read hx]
  rfl

theorem Rep.destroyTarget_inline {t : Target Kind State} (hx : c x = some (.inline t)) :
    destroyTarget w x = .ok { w with
      objects := update w.objects x
        (some { (Content.inline t).encode with storage := none })
      destroyed := t.id :: w.destroyed } := by
  unfold destroyTarget
  rw [h.read hx]
  simp [bind, Except.bind, pure, Except.pure, encode, FunctionObject.target,
    isSBO, destroyImpl, targetOf, targetAt, h.object hx, setTarget, write]

theorem Rep.destroyTarget_boxed {t : Target Kind State} {b : ℕ} (hx : c x = some (.boxed t b)) :
    destroyTarget w x = .ok { w with
      objects := update w.objects x
        (some { (Content.boxed t b).encode with heapPtr := none })
      heap := update w.heap b none
      destroyed := t.id :: w.destroyed
      freed := b :: w.freed } := by
  unfold destroyTarget
  rw [h.read hx]
  simp [bind, Except.bind, pure, Except.pure, encode, FunctionObject.target,
    isSBO, destroyImpl, targetOf, targetAt, h.heap_boxed hx, setTarget, write,
    free, World.read, h.object hx]

theorem Rep.cleanup (hx : c x = some a) :
    ∃ w', cleanup w x = .ok w' ∧ Rep w' (update c x (some .empty)) := by
  unfold Functional.cleanup
  cases a with
  | empty =>
    rw [h.destroyTarget_empty hx]
    refine ⟨w.write x {}, ?_, ?_⟩
    · change (w.read x).bind _ = _
      rw [h.read hx]
      rfl
    · rw [← hx, update_eq_self]
      exact h.same hx
  | inline t =>
    rw [h.destroyTarget_inline hx]
    refine ⟨_, ?_, h.drop_inline hx⟩
    simp [bind, Except.bind, pure, Except.pure, World.read, write, encode,
      forget]
  | boxed t b =>
    rw [h.destroyTarget_boxed hx]
    refine ⟨_, ?_, h.drop_boxed hx⟩
    simp [bind, Except.bind, pure, Except.pure, World.read, write, encode,
      forget]

omit [DecidableEq Obj] [DecidableEq Kind] in
theorem Rep.memSet (hx : c x = some .empty) : memSet w x = .ok w := by
  unfold Functional.memSet
  rw [h.read hx]
  rfl

/-! `Emplace` -/

omit [DecidableEq Kind] in
/-- A target is built where it fits, and the object has it. -/
theorem Rep.place (hx : c x = some .empty) (kind : Kind) (state : State) (fits : Bool) :
    ∃ w' a, place w x kind state fits = .ok w' ∧ Rep w' (update c x (some a)) ∧
      a.value = some (kind, state) := by
  unfold Functional.place
  rw [h.read hx]
  cases fits with
  | true =>
    refine ⟨_, _, ?_, h.fill_inline hx kind state, rfl⟩
    simp [bind, Except.bind, pure, Except.pure, World.read, write, encode,
      initVTable, construct, targetAt, setTarget]
  | false =>
    refine ⟨_, _, ?_, h.fill_boxed hx kind state, rfl⟩
    simp [bind, Except.bind, pure, Except.pure, World.read, write, encode,
      initVTable, construct, targetAt, setTarget, allocate]

/-! `CopyFrom` -/

theorem Rep.copyFrom (hx : c x = some .empty) (hy : c y = some a) :
    ∃ w' a', copyFrom w x y = .ok w' ∧ Rep w' (update c x (some a')) ∧ a'.value = a.value := by
  unfold Functional.copyFrom
  rw [h.read hx, h.read hy]
  cases a with
  | empty =>
    refine ⟨w.write x {}, .empty, rfl, ?_, rfl⟩
    rw [← hx, update_eq_self]
    exact h.same hx
  | inline t =>
    have hxy : y ≠ x := by
      rintro rfl
      rw [hx] at hy
      cases hy
    refine ⟨_, _, ?_, h.fill_inline hx t.kind t.state, rfl⟩
    simp [bind, Except.bind, encode, adopt, copyImpl,
      targetOf, targetAt, write, construct, setTarget, h.object hy, hxy]
  | boxed t b =>
    have hb : b ≠ w.allocated := by
      have := h.blocks.issued y b (by simp [Single, hy, Content.block])
      omega
    refine ⟨_, _, ?_, h.fill_boxed hx t.kind t.state, rfl⟩
    simp [bind, Except.bind, encode, adopt, copyImpl, allocate,
      targetOf, targetAt, write, construct, setTarget, h.heap_boxed hy, hb]

/-! `MoveFrom` -/

theorem Rep.moveFrom (hxy : x ≠ y) (hx : c x = some .empty) (hy : c y = some a) :
    ∃ w' a', moveFrom w x y = .ok w' ∧ Rep w' (update (update c x (some a')) y (some .empty)) ∧
      a'.value = a.value := by
  unfold Functional.moveFrom moveTarget
  rw [h.read hx, h.read hy]
  cases a with
  | empty =>
    refine ⟨(w.write x {}).write y {}, .empty, ?_, ?_, rfl⟩
    · simp [bind, Except.bind, pure, Except.pure, encode, adopt,
        forget, World.read, write, h.object hy, hxy.symm]
    · have hsame : update c x (some .empty) = c := by
        rw [← hx, update_eq_self]
      rw [hsame, ← hy, update_eq_self]
      exact Rep.same (h.same hx) hy
  | inline t =>
    have hfill := h.fill_inline hx t.kind t.state
    have hdrop := hfill.drop_inline
      (by rw [update_of_ne hxy.symm, hy])
    refine ⟨_, _, ?_, hdrop, rfl⟩
    simp [bind, Except.bind, pure, Except.pure, encode, adopt, moveImpl,
      destroyImpl, targetOf, targetAt, write, construct, setTarget, h.object hy, hxy.symm,
      World.read, forget]
  | boxed t b =>
    refine ⟨_, _, ?_, h.steal hxy hx hy, rfl⟩
    simp [bind, Except.bind, pure, Except.pure, encode, adopt, write,
      h.object hy, hxy.symm, World.read, forget]

end

/-! The members in terms of the values that the objects hold. -/

def Holds (w : World Obj Kind State) (v : Obj → Option (Option (Kind × State))) : Prop :=
  ∃ c, Rep w c ∧ ∀ x, (c x).map Content.value = v x

variable {v : Obj → Option (Option (Kind × State))} {o : Option (Kind × State)}

section

omit [DecidableEq Obj] [DecidableEq Kind]

section

variable (hv : ∀ x, (c x).map Content.value = v x)
include hv

theorem content_of_value (hx : v x = some o) : ∃ a, c x = some a ∧ a.value = o := by
  rw [← hv, map_eq_some_iff] at hx
  exact hx

theorem content_of_empty (hx : v x = some none) : c x = some .empty := by
  obtain ⟨a, ha, hvalue⟩ := content_of_value hv hx
  cases a with
  | empty => exact ha
  | inline t => cases hvalue
  | boxed t b => cases hvalue

theorem content_of_none (hx : v x = none) : c x = none := by
  rw [← hv, map_eq_none_iff] at hx
  exact hx

end

end

omit [DecidableEq Kind] in
theorem values_update (hv : ∀ x, (c x).map Content.value = v x)
    (content : Option (Content Kind State)) (y : Obj) : (update c x content y).map Content.value =
      update v x (content.map Content.value) y := by
  by_cases hyx : y = x
  case pos => simp [hyx]
  case neg => simp [hyx, hv]

theorem Holds.cleanup (h : Holds w v) (hx : v x = some o) :
    Ends (Holds · (update v x (some none))) (cleanup w x) := by
  obtain ⟨c, hc, hv⟩ := h
  obtain ⟨a, ha, -⟩ := content_of_value hv hx
  obtain ⟨w', hrun, hc'⟩ := hc.cleanup ha
  exact ⟨w', hrun, _, hc', values_update hv _⟩

section

omit [DecidableEq Kind]

theorem Holds.constructEmpty (h : Holds w v) (hx : v x = none) :
    Ends (Holds · (update v x (some none))) (constructEmpty w x) := by
  obtain ⟨c, hc, hv⟩ := h
  have hc' := hc.add (content_of_none hv hx)
  exact ⟨_, hc'.memSet (update_self ..), _, hc', values_update hv _⟩

theorem Holds.place (h : Holds w v) (hx : v x = some none) (kind : Kind) (state : State)
    (fits : Bool) :
    Ends (Holds · (update v x (some (some (kind, state))))) (place w x kind state fits) := by
  obtain ⟨c, hc, hv⟩ := h
  obtain ⟨w', a, hrun, hc', hvalue⟩ := hc.place (content_of_empty hv hx) kind state fits
  exact ⟨w', hrun, _, hc', fun y => by rw [values_update hv, map_some, hvalue]⟩

end

omit [DecidableEq Obj] [DecidableEq Kind] in
theorem Holds.memSet (h : Holds w v) (hx : v x = some none) : Ends (Holds · v) (memSet w x) := by
  obtain ⟨c, hc, hv⟩ := h
  exact ⟨w, hc.memSet (content_of_empty hv hx), c, hc, hv⟩

theorem Holds.copyFrom (h : Holds w v) (hx : v x = some none) (hy : v y = some o) :
    Ends (Holds · (update v x (some o))) (copyFrom w x y) := by
  obtain ⟨c, hc, hv⟩ := h
  obtain ⟨a, ha, hvalue⟩ := content_of_value hv hy
  obtain ⟨w', a', hrun, hc', hvalue'⟩ := hc.copyFrom (content_of_empty hv hx) ha
  exact ⟨w', hrun, _, hc', fun z => by rw [values_update hv, map_some, hvalue', hvalue]⟩

theorem Holds.moveFrom (h : Holds w v) (hxy : x ≠ y) (hx : v x = some none)
    (hy : v y = some o) :
    Ends (Holds · (update (update v x (some o)) y (some none))) (moveFrom w x y) := by
  obtain ⟨c, hc, hv⟩ := h
  obtain ⟨a, ha, hvalue⟩ := content_of_value hv hy
  obtain ⟨w', a', hrun, hc', hvalue'⟩ := hc.moveFrom hxy (content_of_empty hv hx) ha
  refine ⟨w', hrun, _, hc', fun z => ?_⟩
  rw [← hvalue, ← hvalue']
  exact values_update (fun t => values_update hv _ t) _ z

omit [DecidableEq Obj] [DecidableEq Kind] in
theorem ne_of_none (hx : v x = none) (hy : v y = some o) : y ≠ x := by
  rintro rfl
  rw [hx] at hy
  cases hy

section

omit [DecidableEq Kind]

theorem Holds.constructFrom (callables : Callables Kind State Args R) (h : Holds w v)
    (hx : v x = none) (kind : Kind) (state : State) :
    Ends (Holds · (update v x (some (some (kind, state)))))
      (constructFrom callables w x kind state) := by
  have hrun := (h.constructEmpty hx).bind fun _ h₁ => h₁.place (update_self ..) kind state
    (callables.size kind ≤ kSBOCapacity && callables.align kind ≤ maxAlign)
  rw [update_idem] at hrun
  exact hrun

theorem Holds.constructMember (callables : Callables Kind State Args R) (h : Holds w v)
    (hx : v x = none) (kind : Kind) (state : State) :
    Ends (Holds · (update v x (some (some (kind, state)))))
      (constructMember callables w x kind state) := by
  have hrun := (h.constructEmpty hx).bind fun _ h₁ => h₁.place (update_self ..) kind state
    (callables.size kind ≤ kSBOCapacity)
  rw [update_idem] at hrun
  exact hrun

end

theorem Holds.copyConstruct (h : Holds w v) (hx : v x = none) (hy : v y = some o) :
    Ends (Holds · (update v x (some o))) (copyConstruct w x y) := by
  have hrun := (h.constructEmpty hx).bind fun _ h₁ => h₁.copyFrom (update_self ..)
    (by rw [update_of_ne (ne_of_none hx hy), hy])
  rw [update_idem] at hrun
  exact hrun

theorem Holds.moveConstruct (h : Holds w v) (hx : v x = none) (hy : v y = some o) :
    Ends (Holds · (update (update v x (some o)) y (some none))) (moveConstruct w x y) := by
  have hyx := ne_of_none hx hy
  have hrun := (h.constructEmpty hx).bind fun _ h₁ => h₁.moveFrom hyx.symm (update_self ..)
    (by rw [update_of_ne hyx, hy])
  rw [update_idem] at hrun
  exact hrun

theorem Holds.assignFrom (callables : Callables Kind State Args R) (h : Holds w v)
    (hx : v x = some o) (kind : Kind) (state : State) :
    Ends (Holds · (update v x (some (some (kind, state)))))
      (assignFrom callables w x kind state) := by
  have hrun := (h.cleanup hx).bind fun _ h₁ => h₁.place (update_self ..) kind state
    (callables.size kind ≤ kSBOCapacity && callables.align kind ≤ maxAlign)
  rw [update_idem] at hrun
  exact hrun

variable {o' : Option (Kind × State)}

theorem Holds.copyAssign (h : Holds w v) (hx : v x = some o') (hy : v y = some o) :
    Ends (Holds · (update v x (some o))) (copyAssign w x y) := by
  unfold Functional.copyAssign
  by_cases hxy : x = y
  case pos =>
    subst hxy
    rw [if_pos rfl]
    exact ⟨w, rfl, by rwa [← hy, update_eq_self]⟩
  case neg =>
    have hrun := (h.cleanup hx).bind fun _ h₁ => (h₁.memSet (update_self ..)).bind fun _ h₂ =>
      h₂.copyFrom (update_self ..) (by rw [update_of_ne (Ne.symm hxy), hy])
    rw [update_idem] at hrun
    rw [if_neg hxy]
    exact hrun

theorem Holds.moveAssign (h : Holds w v) (hx : v x = some o') (hy : v y = some o) (hxy : x ≠ y) :
    Ends (Holds · (update (update v x (some o)) y (some none))) (moveAssign w x y) := by
  unfold Functional.moveAssign
  have hrun := (h.cleanup hx).bind fun _ h₁ => (h₁.memSet (update_self ..)).bind fun _ h₂ =>
    h₂.moveFrom hxy (update_self ..) (by rw [update_of_ne (Ne.symm hxy), hy])
  rw [update_idem] at hrun
  rw [if_neg hxy]
  exact hrun

theorem Holds.destruct (h : Holds w v) (hx : v x = some o) :
    Ends (Holds · (update v x none)) (destruct w x) := by
  refine (h.cleanup hx).bind fun w₁ ⟨c, hc, hv⟩ => ?_
  have hempty : c x = some .empty := content_of_empty hv (update_self ..)
  refine ⟨_, rfl, _, hc.remove hempty, fun y => ?_⟩
  rw [values_update hv, update_idem]
  rfl

theorem Holds.swap (h : Holds w v) (temporary : Obj) (htemporary : v temporary = none)
    (hx : v x = some o') (hy : v y = some o) :
    Ends (Holds · (update (update v x (some o)) y (some o'))) (swap w temporary x y) := by
  have hxt : x ≠ temporary := ne_of_none htemporary hx
  have hyt : y ≠ temporary := ne_of_none htemporary hy
  refine (h.moveConstruct htemporary hy).bind fun w₁ h₁ => ?_
  by_cases hxy : x = y
  case pos =>
    subst hxy
    have hself : Functional.moveAssign w₁ x x = .ok w₁ := if_pos rfl
    rw [hself]
    obtain ⟨w₂, hrun, h₂⟩ := (h₁.moveAssign (update_self ..)
      (by rw [update_of_ne hxt.symm, update_self]) hxt).bind fun _ h₂ =>
        h₂.destruct (update_self ..)
    refine ⟨w₂, hrun, ?_⟩
    convert h₂ using 1
    funext z
    have ho : o' = o := by
      rw [hx] at hy
      exact Option.some.inj hy
    by_cases hz : z = temporary <;> by_cases hzx : z = x <;>
      simp_all
  case neg =>
    have hyx : y ≠ x := Ne.symm hxy
    refine (h₁.moveAssign (update_self ..)
      (by rw [update_of_ne hxy, update_of_ne hxt, hx]) hyx).bind fun w₂ h₂ => ?_
    obtain ⟨w₃, hrun, h₃⟩ := (h₂.moveAssign (update_self ..)
      (by rw [update_of_ne hxt.symm, update_of_ne hyt.symm, update_of_ne hyt.symm, update_self])
      hxt).bind fun _ h₃ => h₃.destruct (update_self ..)
    refine ⟨w₃, hrun, ?_⟩
    convert h₃ using 1
    funext z
    by_cases hz : z = temporary <;> by_cases hzx : z = x <;> by_cases hzy : z = y <;>
      simp_all

theorem Holds.call (callables : Callables Kind State Args R) (h : Holds w v) {kind : Kind}
    {state : State} (hx : v x = some (some (kind, state))) (args : Args) :
    ∃ w', call callables w x args = .ok (w', (callables.invoke kind state args).2) ∧
      Holds w' (update v x
        (some (some (kind, (callables.invoke kind state args).1)))) := by
  obtain ⟨c, hc, hv⟩ := h
  obtain ⟨a, ha, hvalue⟩ := content_of_value hv hx
  unfold Functional.call
  rw [hc.read ha]
  cases a with
  | empty => cases hvalue
  | inline t =>
    obtain ⟨rfl, rfl⟩ : t.kind = kind ∧ t.state = state := by
      simpa [Content.value, Content.target] using hvalue
    refine ⟨_, ?_, _, hc.set_inline ha (callables.invoke t.kind t.state args).1, fun z => ?_⟩
    · simp [bind, Except.bind, pure, Except.pure, encode, FunctionObject.target,
        isSBO, invokeImpl, targetOf, targetAt, hc.object ha, setTarget, write]
    · exact values_update hv _ z
  | boxed t b =>
    obtain ⟨rfl, rfl⟩ : t.kind = kind ∧ t.state = state := by
      simpa [Content.value, Content.target] using hvalue
    refine ⟨_, ?_, _, hc.set_boxed ha (callables.invoke t.kind t.state args).1, fun z => ?_⟩
    · simp [bind, Except.bind, pure, Except.pure, encode, FunctionObject.target,
        isSBO, invokeImpl, targetOf, targetAt, hc.heap_boxed ha, setTarget]
    · exact values_update hv _ z

section

omit [DecidableEq Obj] [DecidableEq Kind]

theorem Holds.isEmpty (h : Holds w v) (hx : v x = some o) : isEmpty w x = .ok o.isNone := by
  obtain ⟨c, hc, hv⟩ := h
  obtain ⟨a, ha, rfl⟩ := content_of_value hv hx
  unfold Functional.isEmpty
  rw [hc.read ha]
  cases a <;> rfl

theorem Holds.objects_none (h : Holds w v) : w.objects x = none ↔ v x = none := by
  obtain ⟨c, hc, hv⟩ := h
  rw [hc.objects, ← hv, map_eq_none_iff, map_eq_none_iff]

theorem Holds.exists_value (h : Holds w v) (hx : w.objects x ≠ none) : ∃ o, v x = some o :=
  ne_none_iff_exists'.mp fun hnone => hx (h.objects_none.mpr hnone)

end

/-! Runs -/

variable {ι : Type} [DecidableEq ι]

/-- What each call does to optional values, and its reply. A name without an object has no
value at all. -/
def specExec (callables : Callables Kind State Args R) (s : ι → Option (Option (Kind × State))) :
    Call ι Kind State Args → (ι → Option (Option (Kind × State))) × Reply R
  | .constructEmpty x | .assignNull x | .reset x => (update s x (some none), .done)
  | .constructFrom x kind state | .constructMember x kind state | .assignFrom x kind state =>
    (update s x (some (some (kind, state))), .done)
  | .copyConstruct x other | .copyAssign x other => (update s x (s other), .done)
  | .moveConstruct x other =>
    (update (update s x (s other)) other (some none), .done)
  | .moveAssign x other =>
    if x = other then (s, .done)
    else (update (update s x (s other)) other (some none), .done)
  | .swap x other => (update (update s x (s other)) other (s x), .done)
  | .call x args =>
    match s x with
    | some (some (kind, state)) =>
      let result := callables.invoke kind state args
      (update s x (some (some (kind, result.1))), .result result.2)
    | _ => (s, .done)
  | .isEmpty x => (s, .flag ((s x).elim false Option.isNone))
  | .destruct x => (update s x none, .done)

/-- The named objects hold these values, and there is no temporary object. -/
def Matches (w : World (Option ι) Kind State) (s : ι → Option (Option (Kind × State))) : Prop :=
  Holds w fun x => x.bind s

omit [DecidableEq Kind] in
theorem bind_update (s : ι → Option (Option (Kind × State))) (x : ι)
    (o : Option (Option (Kind × State))) : update (fun z : Option ι => z.bind s) (some x) o =
      fun z => z.bind (update s x o) := by
  funext z
  cases z with
  | none => rfl
  | some z =>
    by_cases hzx : z = x
    case pos => simp [hzx]
    case neg => simp [hzx]

variable {s : ι → Option (Option (Kind × State))}

section

omit [DecidableEq Kind]

theorem matches_one {x : ι} {o : Option (Option (Kind × State))}
    {r : Except Stop (World (Option ι) Kind State)} {reply : Reply R}
    (h : Ends (Holds · (update (fun z : Option ι => z.bind s) (some x) o)) r) :
    ∃ w', r.map (·, reply) = .ok (w', reply) ∧ Matches w' (update s x o) := by
  obtain ⟨w', rfl, h'⟩ := h
  rw [bind_update] at h'
  exact ⟨w', rfl, h'⟩

theorem matches_two {x y : ι} {o o' : Option (Option (Kind × State))}
    {r : Except Stop (World (Option ι) Kind State)} {reply : Reply R}
    (h : Ends (Holds · (update (update (fun z : Option ι => z.bind s) (some x) o) (some y) o')) r) :
    ∃ w', r.map (·, reply) = .ok (w', reply) ∧ Matches w' (update (update s x o) y o') := by
  rw [bind_update] at h
  exact matches_one h

end

theorem Matches.exec (callables : Callables Kind State Args R) {w : World (Option ι) Kind State}
    (h : Matches w s) (call : Call ι Kind State Args) (hlegal : Legal w call) :
    ∃ w', exec callables w call = .ok (w', (specExec callables s call).2) ∧
      Matches w' (specExec callables s call).1 := by
  have hvalue (x : ι) (hx : w.objects (some x) ≠ none) : ∃ o, s x = some o := h.exists_value hx
  have hnone (x : ι) (hx : w.objects (some x) = none) : s x = none := h.objects_none.mp hx
  cases call with
  | constructEmpty x => exact matches_one (Holds.constructEmpty h (hnone x hlegal))
  | constructFrom x kind state =>
    exact matches_one (Holds.constructFrom callables h (x := some x) (hnone x hlegal) kind state)
  | constructMember x kind state =>
    exact matches_one (Holds.constructMember callables h (x := some x) (hnone x hlegal) kind state)
  | copyConstruct x other =>
    obtain ⟨o, ho⟩ := hvalue other hlegal.2
    rw [specExec, ho]
    exact matches_one (Holds.copyConstruct h (hnone x hlegal.1) ho)
  | moveConstruct x other =>
    obtain ⟨o, ho⟩ := hvalue other hlegal.2
    rw [specExec, ho]
    exact matches_two (Holds.moveConstruct h (hnone x hlegal.1) ho)
  | assignNull x =>
    obtain ⟨o, ho⟩ := hvalue x hlegal
    exact matches_one (Holds.cleanup h ho)
  | assignFrom x kind state =>
    obtain ⟨o, ho⟩ := hvalue x hlegal
    exact matches_one (Holds.assignFrom callables h (x := some x) ho kind state)
  | copyAssign x other =>
    obtain ⟨o, ho⟩ := hvalue x hlegal.1
    obtain ⟨o', ho'⟩ := hvalue other hlegal.2
    rw [specExec, ho']
    exact matches_one (Holds.copyAssign h ho ho')
  | moveAssign x other =>
    obtain ⟨o, ho⟩ := hvalue x hlegal.1
    obtain ⟨o', ho'⟩ := hvalue other hlegal.2
    by_cases hself : x = other
    case pos =>
      have hrun : Functional.moveAssign w (some x) (some other) = .ok w :=
        if_pos (congrArg some hself)
      rw [specExec, if_pos hself]
      exact ⟨w, by rw [Functional.exec, hrun]; rfl, h⟩
    case neg =>
      rw [specExec, if_neg hself, ho']
      exact matches_two (Holds.moveAssign h ho ho'
        (fun heq => hself (Option.some.inj heq)))
  | swap x other =>
    obtain ⟨o, ho⟩ := hvalue x hlegal.1
    obtain ⟨o', ho'⟩ := hvalue other hlegal.2
    rw [specExec, ho, ho']
    exact matches_two (Holds.swap h none rfl ho ho')
  | reset x =>
    obtain ⟨o, ho⟩ := hvalue x hlegal
    exact matches_one (Holds.cleanup h ho)
  | call x args =>
    obtain ⟨f, hf, htarget⟩ := (any_eq_true _ _).mp hlegal
    obtain ⟨o, ho⟩ := hvalue x (by rw [hf]; nofun)
    cases o with
    | none =>
      have hempty := Holds.isEmpty h (x := some x) ho
      unfold Functional.isEmpty World.read at hempty
      rw [hf] at hempty
      simp [bind, Except.bind, pure, Except.pure, htarget] at hempty
    | some value =>
      obtain ⟨w', hrun, h'⟩ := Holds.call callables h (x := some x) ho args
      rw [specExec, ho]
      exact ⟨w', by rw [Functional.exec, hrun]; rfl, by rwa [bind_update] at h'⟩
  | isEmpty x =>
    obtain ⟨o, ho⟩ := hvalue x hlegal
    rw [specExec, ho]
    exact ⟨w, by rw [Functional.exec, Holds.isEmpty h (x := some x) ho]; rfl, h⟩
  | destruct x =>
    obtain ⟨o, ho⟩ := hvalue x hlegal
    exact matches_one (Holds.destruct h ho)

def World.held {Obj : Type} (w : World Obj Kind State) (x : Obj) : Option (Target Kind State) :=
  (w.objects x).bind fun f => (f.target x).bind w.targetAt

/-- The optional value that a function object is, if there is an object. -/
def World.value {Obj : Type} (w : World Obj Kind State) (x : Obj) :
    Option (Option (Kind × State)) :=
  (w.objects x).map fun _ => (w.held x).map fun t => (t.kind, t.state)

def World.blockOf {Obj : Type} (w : World Obj Kind State) (x : Obj) : Option ℕ :=
  (w.objects x).bind fun f => f.heapPtr

/-- Every target that was constructed is the one of a single function object, or was destroyed
once; and so for the blocks that were allocated and freed. -/
structure Accounted {Obj : Type} (w : World Obj Kind State) : Prop where
  targets : Ledger (Single fun x => (w.held x).map Target.id) w.constructed w.destroyed
  blocks : Ledger (Single w.blockOf) w.allocated w.freed

section

omit [DecidableEq Obj] [DecidableEq Kind]

theorem Rep.held (h : Rep w c) (x : Obj) : w.held x = (c x).bind Content.target := by
  unfold World.held
  rw [h.objects]
  cases hx : c x with
  | none => rfl
  | some a =>
    cases a with
    | empty => rfl
    | inline t =>
      simp [encode, Content.target, FunctionObject.target, isSBO,
        targetAt, h.objects, hx]
    | boxed t b =>
      simp [encode, Content.target, FunctionObject.target, isSBO,
        targetAt, h.heap_boxed hx]

theorem Holds.value (h : Holds w v) (x : Obj) : w.value x = v x := by
  obtain ⟨c, hc, hv⟩ := h
  unfold World.value
  rw [hc.held, hc.objects, ← hv]
  cases c x <;> rfl

theorem Holds.accounted (h : Holds w v) : Accounted w := by
  obtain ⟨c, hc, -⟩ := h
  refine ⟨hc.targets.congr_single fun x => ?_, hc.blocks.congr_single fun x => ?_⟩
  · rw [hc.held]
    cases c x <;> rfl
  · unfold World.blockOf
    rw [hc.objects]
    cases hx : c x with
    | none => rfl
    | some a => cases a <;> rfl

/-- When no function object is left, every target was destroyed and every block freed. -/
theorem Accounted.settled (h : Accounted w) (hnone : ∀ x, w.objects x = none) :
    w.destroyed.Perm (List.range w.constructed) ∧ w.freed.Perm (List.range w.allocated) :=
  ⟨h.targets.settled fun x => by simp [Single, World.held, hnone],
    h.blocks.settled fun x => by simp [Single, World.blockOf, hnone]⟩

end

/-- Every run gives the replies of the optional values and leaves objects with these values. No
target and no block is lost, or destroyed or freed more than once. -/
theorem behaves_as_optional (callables : Callables Kind State Args R)
    (calls : List (Call ι Kind State Args))
    (hlegal : Calls.Guarded (exec callables) Legal start calls) :
    ∃ w, Calls.run (exec callables) start calls =
        .ok (w, (Calls.total (specExec callables) (fun _ => none) calls).2) ∧
      (∀ x, w.value (some x) = (Calls.total (specExec callables) (fun _ => none) calls).1 x) ∧
      Accounted w ∧ ((∀ x, w.objects (some x) = none) →
        w.destroyed.Perm (List.range w.constructed) ∧ w.freed.Perm (List.range w.allocated)) := by
  have hstart : Matches (start : World (Option ι) Kind State) fun _ => none :=
    ⟨_, rep_start, fun x => by cases x <;> rfl⟩
  obtain ⟨w, hrun, hw⟩ := Calls.run_matches (fun w s => Matches w s)
    (fun w s call h hcall => h.exec callables call hcall) hstart hlegal
  refine ⟨w, hrun, fun x => Holds.value hw (some x), Holds.accounted hw, fun hnone => ?_⟩
  refine (Holds.accounted hw).settled fun x => ?_
  cases x with
  | none => exact (Holds.objects_none hw).mpr rfl
  | some x => exact hnone x

/-- Counters of two kinds, one that fits the storage and one that does not. -/
def counters : Callables Bool ℕ ℕ ℕ where
  size kind := if kind then 64 else 8
  align _ := 8
  invoke _ state args := (state + args, state + args)

/-- A small and a large counter, copied, moved, swapped, called and destroyed. -/
def counterCalls : List (Call ℕ Bool ℕ ℕ) :=
  [.constructFrom 0 true 5, .copyConstruct 1 0, .call 1 2, .constructFrom 2 false 7, .swap 1 2,
    .call 2 1, .moveAssign 0 1, .copyAssign 0 0, .call 0 3, .destruct 0, .destruct 1, .destruct 2]

theorem behaves_as_optional_counters : ∃ w, Calls.run (exec counters) start counterCalls =
        .ok (w, (Calls.total (specExec counters) (fun _ => none) counterCalls).2) ∧
      (∀ x, w.value (some x) = (Calls.total (specExec counters) (fun _ => none) counterCalls).1 x) ∧
      Accounted w ∧ ((∀ x, w.objects (some x) = none) →
        w.destroyed.Perm (List.range w.constructed) ∧ w.freed.Perm (List.range w.allocated)) :=
  behaves_as_optional counters counterCalls (by decide +kernel)

end Equilibrium.Functional
