import Equilibrium.Containers.LockFreeOrderedMapChains

/-! The order list under concurrent appends and splices. Only the node that was appended
last has a null successor, every link leads to the unmarked nodes behind it and to the
last one, and the tail names the last node or the one before it. -/

namespace Equilibrium.LockFreeOrderedHashMap

open Library.LinkedChain List
open Function (update update_self update_of_ne)

variable {Key Value : Type}

def place (appended : List ℕ) (x : ℕ) : ℤ := -(appended.idxOf x)

variable {x : ℕ}

theorem place_append {appended : List ℕ} (hx : x ∈ appended) (l : List ℕ) :
    place (appended ++ l) x = place appended x := by
  rw [place, place, idxOf_append_of_mem hx]

theorem place_new {appended : List ℕ} (hx : x ∉ appended) :
    place (appended ++ [x]) x = -appended.length := by
  rw [place, idxOf_append_of_notMem hx]
  simp

theorem lt_place {appended : List ℕ} (hx : x ∈ appended) :
    -(appended.length : ℤ) < place appended x :=
  Int.neg_lt_neg (Int.ofNat_lt.mpr (idxOf_lt_length_of_mem hx))

theorem place_nonpos (appended : List ℕ) (x : ℕ) : place appended x ≤ 0 := by
  rw [place]
  omega

theorem place_last {appended : List ℕ} (hnodup : appended.Nodup) (h : appended.getLast? = some x) :
    place appended x = 1 - appended.length := by
  obtain ⟨l, rfl⟩ := getLast?_eq_some_iff.mp h
  have hx : x ∉ l := fun hx => (nodup_append.mp hnodup).2.2 x hx x (by simp) rfl
  rw [place_new hx, length_append, length_singleton]
  omega

theorem last_of_place {appended : List ℕ} (hx : x ∈ appended)
    (h : place appended x = 1 - appended.length) : appended.getLast? = some x := by
  rw [place] at h
  rw [getLast?_eq_getElem?, ← getElem?_idxOf hx]
  congr 1
  omega

theorem place_lt_of_prefix {appended appended' : List ℕ} (h : appended <+: appended') {y : ℕ}
    (hx : x ∈ appended) (hy : y ∉ appended) : place appended' y < place appended' x := by
  obtain ⟨l, rfl⟩ := h
  rw [place_append hx]
  refine Int.lt_of_le_of_lt ?_ (lt_place hx)
  rw [place, idxOf_append_of_notMem hy]
  omega

def Kept (m : Map Key Value) (appended : List ℕ) (x : ℕ) : Prop :=
  x ∈ appended ∧ (m.Undeleted x ∨ appended.getLast? = some x)

/-- The pointer leads to what is kept below `r`. -/
structure LeadsOrder (m : Map Key Value) (appended : List ℕ) (r : ℤ) (p : Option ℕ) : Prop where
  below : Below (place appended) (· ∈ appended) r p
  reach : ∀ z, Kept m appended z → place appended z < r → Reach m.orderNext p z

structure OrderList (m : Map Key Value) (appended : List ℕ) : Prop where
  nodup : appended.Nodup
  head : LeadsOrder m appended 1 m.orderHead
  next : ∀ x ∈ appended, LeadsOrder m appended (place appended x) (m.orderNext x)
  empty : m.orderHead = none → appended = []
  last : ∀ x ∈ appended, m.orderNext x = none → appended.getLast? = some x
  noTail : m.orderTail = none → appended.length ≤ 1
  tail : ∀ t, m.orderTail = some t → t ∈ appended ∧ place appended t ≤ 2 - appended.length

namespace OrderList

variable {m m' : Map Key Value} {appended : List ℕ}

section

variable (h : OrderList m appended)
include h

theorem descends : Descends m.orderNext (place appended) (· ∈ appended) :=
  fun x _ hx hy => (h.next x hx).below _ hy

theorem next_last (hlast : appended.getLast? = some x) : m.orderNext x = none := by
  have hx := mem_of_getLast? hlast
  cases hnext : m.orderNext x with
  | none => rfl
  | some y =>
    obtain ⟨hy, hlt⟩ := h.descends x y hx hnext
    have := lt_place hy
    rw [place_last h.nodup hlast] at hlt
    omega

theorem of_next (hr : Retains m m') (hnode : ∀ x ∈ appended, ∃ n, m.nodes x = some n)
    (hhead : m'.orderHead = m.orderHead) (htail : m'.orderTail = m.orderTail)
    (hnext : ∀ x ∈ appended, m'.orderNext x = m.orderNext x) : OrderList m' appended := by
  have hkept : ∀ {z}, Kept m' appended z → Kept m appended z := by
    rintro z ⟨hz, hz'⟩
    obtain ⟨n, hn⟩ := hnode z hz
    exact ⟨hz, hz'.imp_left (hr.undeleted hn)⟩
  have hreach : ∀ {r p z}, Below (place appended) (· ∈ appended) r p →
      Reach m.orderNext p z → Reach m'.orderNext p z := by
    intro r p z hp hz
    exact hz.congr fun x hx => hnext x (hx.lower h.descends hp).1
  have hleads : ∀ {r p}, LeadsOrder m appended r p → LeadsOrder m' appended r p := fun hl =>
    ⟨hl.below, fun z hz hlt => hreach hl.below (hl.reach z (hkept hz) hlt)⟩
  exact ⟨h.nodup, hhead ▸ hleads h.head, fun x hx => hnext x hx ▸ hleads (h.next x hx),
    fun hnone => h.empty (hhead ▸ hnone), fun x hx hnone => h.last x hx (hnext x hx ▸ hnone),
    fun hnone => h.noTail (htail ▸ hnone), fun t ht => h.tail t (htail ▸ ht)⟩

theorem setTail {t : ℕ} (hlast : appended.getLast? = some t) :
    OrderList { m with orderTail := some t } appended :=
  ⟨h.nodup, ⟨h.head.below, h.head.reach⟩, fun x hx => ⟨(h.next x hx).below, (h.next x hx).reach⟩,
    h.empty, h.last, nofun, fun u hu => by
      cases hu
      refine ⟨mem_of_getLast? hlast, ?_⟩
      rw [place_last h.nodup hlast]
      omega⟩

theorem first (hhead : m.orderHead = none) (hx : m.orderNext x = none) :
    OrderList { m with orderHead := some x } (appended ++ [x]) := by
  obtain rfl := h.empty hhead
  have htail : m.orderTail = none := by
    cases ht : m.orderTail with
    | none => rfl
    | some t => exact absurd (h.tail t ht).1 not_mem_nil
  have hmem : ∀ {z}, z ∈ ([] ++ [x] : List ℕ) ↔ z = x := by simp
  refine ⟨nodup_singleton x, ⟨fun y hy => ?_, fun z hz _ => ?_⟩, fun y hy => ?_, nofun,
    fun y hy _ => ?_, fun _ => Nat.le_refl _, fun t ht => absurd (htail.symm.trans ht) nofun⟩
  · cases hy
    exact ⟨by simp, by have := place_nonpos ([] ++ [x]) x; omega⟩
  · rw [hmem.mp hz.1]
    exact .here x
  · rw [hmem.mp hy]
    refine ⟨fun y hy => absurd (hx.symm.trans hy) nofun, fun z hz hlt => ?_⟩
    rw [hmem.mp hz.1] at hlt
    exact absurd hlt (Int.lt_irrefl _)
  · rw [hmem.mp hy]
    rfl

theorem place_last_le (hx : x ∈ appended) {t : ℕ} (hlast : appended.getLast? = some t) :
    place appended t ≤ place appended x := by
  have := lt_place hx
  rw [place_last h.nodup hlast]
  omega

theorem append {t : ℕ} (ht : t ∈ appended) (hnode : ∃ n, m.nodes t = some n)
    (hnone : m.orderNext t = none)
    (htail : ∃ u, m.orderTail = some u ∧ place appended u ≤ place appended t) (hnew : x ∉ appended)
    (hx : m.orderNext x = none) :
    OrderList (m.modify t fun n => { n with orderNext := some x }) (appended ++ [x]) := by
  have hlast := h.last t ht hnone
  have hxt : x ≠ t := fun hxt => hnew (hxt ▸ ht)
  have hnext : (m.modify t fun n => { n with orderNext := some x }).orderNext =
      update m.orderNext t (some x) := Map.orderNext_store hnode
  have hlength : ((appended ++ [x]).length : ℤ) = appended.length + 1 := by simp
  have hplace : ∀ {y}, y ∈ appended → place (appended ++ [x]) y = place appended y := fun hy =>
    place_append hy _
  have hplaceNew := place_new hnew
  have hundeleted : ∀ {z}, (m.modify t fun n => { n with orderNext := some x }).Undeleted z →
      m.Undeleted z := by
    rintro z ⟨n', hn', hlive⟩
    rw [Map.nodes_modify] at hn'
    obtain ⟨n, hn, rfl⟩ := Option.map_eq_some_iff.mp hn'
    exact ⟨n, hn, by split at hlive <;> exact hlive⟩
  -- every link leads on to the last node, and from there to the new one
  have hreach : ∀ {r p z}, LeadsOrder m appended r p → place appended t < r →
      Kept (m.modify t fun n => { n with orderNext := some x }) (appended ++ [x]) z →
      place (appended ++ [x]) z < r → Reach (update m.orderNext t (some x)) p z := by
    intro r p z hl htr hz hzr
    have hpt : Reach (update m.orderNext t (some x)) p t :=
      (hl.reach t ⟨ht, .inr hlast⟩ htr).update_self
    by_cases hzx : z = x
    · subst hzx
      refine hpt.trans ?_
      rw [update_self]
      exact .here _
    · have hzmem : z ∈ appended := by
        have := hz.1
        simp only [mem_append, mem_singleton] at this
        exact this.resolve_right hzx
      have hlive : m.Undeleted z := by
        rcases hz.2 with hlive | hl'
        · exact hundeleted hlive
        · rw [getLast?_concat] at hl'
          exact absurd (Option.some.inj hl').symm hzx
      rw [hplace hzmem] at hzr
      have hold := hl.reach z ⟨hzmem, .inl hlive⟩ hzr
      by_cases hzt : z = t
      · exact hzt ▸ hpt
      · -- the old path ends before `t`, whose place is the lowest
        have hgen : ∀ {p}, Reach m.orderNext p z → Reach (update m.orderNext t (some x)) p z := by
          intro p hp
          induction hp with
          | here => exact .here _
          | @there y z hp ih =>
            refine .there ?_
            by_cases hyt : y = t
            · subst hyt
              rw [hnone] at hp
              exact absurd hp not_reach_none
            · rw [update_of_ne hyt]
              exact ih hz hzr hzx hzmem hlive hold hzt
        exact hgen hold
  refine ⟨?_, ⟨fun y hy => ?_, fun z hz hlt => ?_⟩, fun y hy => ?_, fun hhead => ?_,
    fun y hy hnone' => ?_, fun hno => ?_, fun u hu => ?_⟩
  · rw [nodup_append]
    exact ⟨h.nodup, nodup_singleton x, fun a ha b hb hab =>
      hnew (mem_singleton.mp hb ▸ hab ▸ ha)⟩
  · obtain ⟨hmem, hlt⟩ := h.head.below y hy
    exact ⟨mem_append_left _ hmem, by rw [hplace hmem]; exact hlt⟩
  · rw [hnext]
    have := place_nonpos appended t
    exact hreach h.head (by omega) hz hlt
  · rw [hnext]
    rcases mem_append.mp hy with hy | hy
    · by_cases hyt : y = t
      · subst hyt
        rw [update_self, hplace hy]
        refine ⟨fun z hz => ?_, fun z hz hlt => ?_⟩
        · cases hz
          refine ⟨by simp, ?_⟩
          have := lt_place hy
          omega
        · by_cases hzx : z = x
          · rw [hzx]
            exact .here _
          · have hzmem : z ∈ appended := by
              have := hz.1
              simp only [mem_append, mem_singleton] at this
              exact this.resolve_right hzx
            rw [hplace hzmem] at hlt
            have := h.place_last_le hzmem hlast
            omega
      · rw [update_of_ne hyt, hplace hy]
        have hlt : place appended t < place appended y := by
          have hle := h.place_last_le hy hlast
          have hne : place appended t ≠ place appended y := by
            intro heq
            refine hyt (Option.some.inj (Eq.trans (last_of_place hy ?_).symm hlast))
            rw [← heq, place_last h.nodup hlast]
          omega
        refine ⟨fun z hz => ?_, fun z hz hzr => ?_⟩
        · obtain ⟨hmem, hlt'⟩ := (h.next y hy).below z hz
          exact ⟨mem_append_left _ hmem, by rw [hplace hmem]; exact hlt'⟩
        · rw [hnext]
          exact hreach (h.next y hy) hlt hz hzr
    · obtain rfl := mem_singleton.mp hy
      rw [update_of_ne hxt, hx]
      refine ⟨below_none, fun z hz hlt => ?_⟩
      have := lt_place hz.1
      omega
  · have : m.orderHead = none := hhead
    rw [h.empty this] at ht
    cases ht
  · rw [hnext] at hnone'
    rcases mem_append.mp hy with hy | hy
    · by_cases hyt : y = t
      · subst hyt
        rw [update_self] at hnone'
        cases hnone'
      · rw [update_of_ne hyt] at hnone'
        have := (h.last y hy hnone').symm.trans hlast
        exact absurd (Option.some.inj this) hyt
    · rw [mem_singleton.mp hy]
      exact getLast?_concat
  · obtain ⟨u, hu, -⟩ := htail
    cases hu.symm.trans hno
  · obtain ⟨v, hv, hle⟩ := htail
    have huv : v = u := Option.some.inj (hv.symm.trans hu)
    subst huv
    obtain ⟨hmem, -⟩ := h.tail v hv
    refine ⟨mem_append_left _ hmem, ?_⟩
    rw [hplace hmem, hlength]
    have := place_last h.nodup hlast
    omega

theorem splice {prev : Option ℕ} {y : ℕ} (hx : x ∈ appended)
    (hnode : ∀ x ∈ appended, ∃ n, m.nodes x = some n) (hmark : m.Marked x)
    (hprev : ∀ a, prev = some a → a ∈ appended) (hlink : m.orderLink prev = some x)
    (hxy : m.orderNext x = some y) : OrderList (m.storeOrderLink prev (some y)) appended := by
  have hnotLast : appended.getLast? ≠ some x := fun hlast =>
    absurd ((h.next_last hlast).symm.trans hxy) nofun
  obtain ⟨hy, hyx⟩ := h.descends x y hx hxy
  have hundeleted : ∀ {z}, (m.storeOrderLink prev (some y)).Undeleted z → m.Undeleted z := by
    intro z hz
    cases prev with
    | none => exact hz
    | some a =>
      obtain ⟨n', hn', hlive⟩ := hz
      rw [Map.storeOrderLink, Map.nodes_modify] at hn'
      obtain ⟨n, hn, rfl⟩ := Option.map_eq_some_iff.mp hn'
      exact ⟨n, hn, by split at hlive <;> exact hlive⟩
  have hne : ∀ {z}, Kept m appended z → z ≠ x := by
    rintro z ⟨-, hlive | hlast⟩ rfl
    · exact hmark.not_undeleted hlive
    · exact hnotLast hlast
  -- what a pointer to `x` led to, the pointer to `y` leads to
  have hskip : ∀ {z}, Kept m appended z → Reach m.orderNext (some x) z →
      Reach m.orderNext (some y) z := by
    intro z hz hr
    have := (reach_some.mp hr).resolve_left (hne hz)
    rwa [hxy] at this
  cases prev with
  | none =>
    have hhead : m.orderHead = some x := hlink
    refine ⟨h.nodup, ⟨fun z hz => ?_, fun z hz _ => ?_⟩, fun z hz => ?_, nofun, h.last, h.noTail,
      h.tail⟩
    · cases hz
      exact ⟨hy, by have := place_nonpos appended y; omega⟩
    · have hkept : Kept m appended z := ⟨hz.1, hz.2.imp_left hundeleted⟩
      exact hskip hkept (hhead ▸ h.head.reach z hkept (by omega))
    · exact ⟨(h.next z hz).below, fun w hw hlt =>
        (h.next z hz).reach w ⟨hw.1, hw.2.imp_left hundeleted⟩ hlt⟩
  | some a =>
    have ha := hprev a rfl
    have hnext : (m.storeOrderLink (some a) (some y)).orderNext =
        update m.orderNext a (some y) := Map.orderNext_store (hnode a ha)
    have hbelow : Below (place appended) (· ∈ appended) (place appended x) (some y) := by
      intro z hz
      cases hz
      exact ⟨hy, hyx⟩
    have hreach : ∀ {r p z}, LeadsOrder m appended r p → Kept m appended z →
        place appended z < r → Reach (update m.orderNext a (some y)) p z := by
      intro r p z hl hz hlt
      refine (hl.reach z hz hlt).splice h.descends ha hlink hbelow (fun _ hzx => ?_) (hne hz)
        hl.below
      have := (h.next x hx).reach z hz hzx
      rwa [hxy] at this
    refine ⟨h.nodup, ⟨h.head.below, fun z hz hlt => ?_⟩, fun z hz => ?_, h.empty,
      fun z hz hnone => ?_, h.noTail, h.tail⟩
    · rw [hnext]
      exact hreach h.head ⟨hz.1, hz.2.imp_left hundeleted⟩ hlt
    · rw [hnext]
      by_cases hza : z = a
      · subst hza
        rw [update_self]
        have hxz := (h.descends z x hz hlink).2
        refine ⟨hbelow.mono (Int.le_of_lt hxz), fun w hw hlt => ?_⟩
        have hw' : Kept m appended w := ⟨hw.1, hw.2.imp_left hundeleted⟩
        rw [hnext]
        have hold : Reach m.orderNext (some y) w :=
          hskip hw' (hlink ▸ (h.next z hz).reach w hw' hlt)
        exact (reach_update_below h.descends (hbelow.mono (Int.le_of_lt hxz))).mpr hold
      · rw [update_of_ne hza]
        refine ⟨(h.next z hz).below, fun w hw hlt => ?_⟩
        rw [hnext]
        exact hreach (h.next z hz) ⟨hw.1, hw.2.imp_left hundeleted⟩ hlt
    · rw [hnext] at hnone
      by_cases hza : z = a
      · subst hza
        rw [update_self] at hnone
        cases hnone
      · rw [update_of_ne hza] at hnone
        exact h.last z hz hnone

end

end OrderList

end Equilibrium.LockFreeOrderedHashMap
