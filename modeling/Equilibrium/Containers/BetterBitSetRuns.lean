import Equilibrium.Containers.BetterBitSetBits

/-! Runs of operations on `BetterBitSet` objects: when they behave as sets of positions. -/

namespace Equilibrium.BetterBitSet

open Library.WordBits
open Function (update update_self update_eq_self update_idem update_apply)

variable {N : Width} {ι : Type} [DecidableEq ι]

def abs (s : World ι N) : ι → Finset (Fin N.size) := fun x => positions N.size (s x)

theorem abs_update (s : World ι N) (x : ι) (a : Storage N) :
    abs (update s x a) = update (abs s) x (positions N.size a) :=
  Function.comp_update (positions N.size) s x a

theorem valid_update {s : World ι N} (hs : ∀ z, Valid (s z)) (x : ι) {a : Storage N}
    (ha : Valid a) : ∀ z, Valid (update s x a z) :=
  (Function.forall_update_iff s fun _ a => Valid a).mpr ⟨ha, fun z _ => hs z⟩

section Union

theorem seen_congr {S T : Finset (Fin N.size)} {pos : ℕ}
    (h : ∀ q : Fin N.size, pos ≤ q.val → (q ∈ S ↔ q ∈ T)) : Seen S pos ↔ Seen T pos := by
  have hself : (∃ q ∈ S, q.val = pos) ↔ ∃ q ∈ T, q.val = pos :=
    exists_congr fun q => and_congr_left fun hq => h q (Nat.le_of_eq hq.symm)
  have hword : (∃ q ∈ S, pos < q.val ∧ q.val / 64 = pos / 64) ↔
      ∃ q ∈ T, pos < q.val ∧ q.val / 64 = pos / 64 :=
    exists_congr fun q => and_congr_left fun hq => h q (Nat.le_of_lt hq.1)
  rw [Seen, Seen, hself, hword]

theorem kWords_le_size (N : Width) : N.kWords ≤ N.size := by
  rw [kWords_eq]
  omega

theorem orLoop {s : World ι N} (hs : ∀ z, Valid (s z)) (x y : ι) {k : ℕ} (hk : k ≤ N.kWords) :
    ∃ a, (List.range k).foldl (fun s i =>
        update s x (set (s x) i (subscript (s x) i || subscript (s y) i))) s =
          update s x a ∧ Valid a ∧ ∀ p : Fin N.size, p ∈ positions N.size a ↔
        if p.val < k then Seen (abs s x) p ∨ Seen (abs s y) p else p ∈ abs s x := by
  induction k with
  | zero =>
    refine ⟨s x, (update_eq_self x s).symm, hs x, fun p => ?_⟩
    rw [if_neg (Nat.not_lt_zero _)]
    rfl
  | succ k ih =>
    obtain ⟨a, hloop, ha, hmem⟩ := ih (by omega)
    have hpos : k < N.size := by
      have := kWords_le_size N
      omega
    have hlater : ∀ q : Fin N.size, k ≤ q.val → (q ∈ positions N.size a ↔ q ∈ abs s x) := by
      intro q hq
      rw [hmem, if_neg (by omega)]
    have hx : subscript a k = decide (Seen (abs s x) k) := by
      rw [subscript_eq ha hpos]
      exact decide_eq_decide.mpr (seen_congr hlater)
    have hy : subscript (update s x a y) k = decide (Seen (abs s y) k) := by
      rw [update_apply]
      split
      case isTrue heq =>
        rw [heq]
        exact hx
      case isFalse => exact subscript_eq (hs y) hpos
    refine ⟨set a k (decide (Seen (abs s x) k) || decide (Seen (abs s y) k)), ?_,
      ha.set hpos _, fun p => ?_⟩
    · rw [List.range_succ, List.foldl_append, hloop, List.foldl_cons, List.foldl_nil,
        update_self, update_idem, hx, hy]
    · rw [mem_positions, bitAt_set ha hpos]
      by_cases heq : p.val = k
      · rw [if_pos heq, if_pos (by omega), heq, Bool.or_eq_true, decide_eq_true_iff,
          decide_eq_true_iff]
      · have hstep : p.val < k + 1 ↔ p.val < k := by omega
        rw [if_neg heq, ← mem_positions, hmem]
        simp only [hstep]

/-- What `operator|=` must see and find: nothing but members at the positions that it visits,
which are as many as there are words, and no new member at the others. -/
def UnionSeen (S T : Finset (Fin N.size)) : Prop :=
  (∀ p : Fin N.size, p.val < N.kWords → Seen S p ∨ Seen T p → p ∈ S ∪ T) ∧
    ∀ p ∈ T, N.kWords ≤ p.val → p ∈ S

instance (S T : Finset (Fin N.size)) : Decidable (UnionSeen S T) :=
  inferInstanceAs (Decidable (_ ∧ _))

theorem seen_of_mem {S : Finset (Fin N.size)} {p : Fin N.size} (h : p ∈ S) : Seen S p :=
  .inl ⟨p, h, rfl⟩

theorem orAssign_spec {s : World ι N} (hs : ∀ z, Valid (s z)) (x y : ι) :
    ∃ a, orAssign s x y = update s x a ∧ Valid a ∧
      (positions N.size a = abs s x ∪ abs s y ↔ UnionSeen (abs s x) (abs s y)) := by
  obtain ⟨a, hloop, ha, hmem⟩ := orLoop hs x y (Nat.le_refl N.kWords)
  refine ⟨a, hloop, ha, ?_⟩
  rw [Finset.ext_iff]
  constructor
  · intro h
    refine ⟨fun p hp hseen => ?_, fun p hpy hp => ?_⟩
    · refine (h p).mp ((hmem p).mpr ?_)
      rw [if_pos hp]
      exact hseen
    · have hset := (hmem p).mp ((h p).mpr (Finset.mem_union_right _ hpy))
      rw [if_neg (by omega)] at hset
      exact hset
  · rintro ⟨hseen, hnew⟩ p
    rw [hmem]
    split
    case isTrue hp =>
      refine ⟨hseen p hp, fun hunion => ?_⟩
      obtain hS | hT := Finset.mem_union.mp hunion
      · exact .inl (seen_of_mem hS)
      · exact .inr (seen_of_mem hT)
    case isFalse hp =>
      refine ⟨fun hS => Finset.mem_union_left _ hS, fun hunion => ?_⟩
      obtain hS | hT := Finset.mem_union.mp hunion
      · exact hS
      · exact hnew p hT (by omega)

end Union

section Steps

def step (s : World ι N) (c : Call ι N) : Except Empty (World ι N × Reply) := .ok (exec s c)

/-- The call does on the objects what it does on the sets they stand for, and leaves them
without a bit at or above `N`. -/
def Behaves (s : World ι N) (c : Call ι N) : Prop :=
  (exec s c).2 = (specExec (abs s) c).2 ∧ abs (exec s c).1 = (specExec (abs s) c).1 ∧
    ∀ z, Valid ((exec s c).1 z)

/-- The positions that `operator[]` and `operator|=` read by whole words are members. -/
def ReadsMembers (s : World ι N) : Call ι N → Prop
  | .subscript x pos => Seen (abs s x) pos → pos ∈ abs s x
  | .orAssign x y => UnionSeen (abs s x) (abs s y)
  | _ => True

instance (s : World ι N) : ∀ c : Call ι N, Decidable (ReadsMembers s c)
  | .subscript x pos => inferInstanceAs (Decidable (_ → _))
  | .orAssign x y => inferInstanceAs (Decidable (UnionSeen (abs s x) (abs s y)))
  | .construct _ _ | .copy _ _ | .set _ _ _ | .setAll _ | .reset _ _ | .resetAll _ | .flip _
  | .andAssign _ _ _ | .xorAssign _ _ | .countSetBits _ | .equal _ _ => isTrue trivial

variable {s : World ι N}

theorem behaves_of_update (hs : ∀ z, Valid (s z)) {c : Call ι N} {x : ι} {a : Storage N}
    (hexec : exec s c = (update s x a, .done))
    {S : Finset (Fin N.size)} (hspec : specExec (abs s) c = (update (abs s) x S, .done))
    (ha : Valid a) (h : positions N.size a = S) : Behaves s c := by
  rw [Behaves, hexec, hspec]
  refine ⟨rfl, ?_, valid_update hs x ha⟩
  rw [abs_update, h]

theorem behaves_iff (hs : ∀ z, Valid (s z)) (c : Call ι N) : Behaves s c ↔ ReadsMembers s c := by
  have hiff : ∀ {x : ι} {a : Storage N} {f : ℕ → Bool} {S : Finset (Fin N.size)},
      exec s c = (update s x a, .done) →
        specExec (abs s) c = (update (abs s) x S, .done) → a.length = N.kWords →
          (∀ p, bitAt a p = (decide (p < N.size) && f p)) →
            (∀ p : Fin N.size, p ∈ S ↔ f p = true) → Behaves s c := by
    intro x a f S hexec hspec hlength hbits hmem
    refine behaves_of_update hs hexec hspec (valid_of_bits hlength hbits) ?_
    ext p
    rw [positions_of_bits hbits, Finset.mem_filter, hmem]
    exact and_iff_right (Finset.mem_univ p)
  cases c with
  | construct x val =>
    refine iff_of_true (hiff rfl rfl ?_ (fun _ => bitAt_ofNumber val) fun p => ?_) trivial
    · rw [ofNumber, List.length_set, length_empty]
    · rw [Finset.mem_filter]
      exact and_iff_right (Finset.mem_univ p)
  | copy x y => exact iff_of_true (behaves_of_update hs rfl rfl (hs y) rfl) trivial
  | set x pos value =>
    refine iff_of_true (behaves_of_update hs rfl rfl ((hs x).set pos.isLt value) ?_) trivial
    exact positions_set (hs x) pos value
  | setAll x =>
    refine iff_of_true (hiff rfl rfl length_setAll (fun _ => bitAt_setAll) fun p => ?_) trivial
    exact iff_of_true (Finset.mem_univ p) rfl
  | reset x pos =>
    refine iff_of_true (behaves_of_update hs rfl rfl ((hs x).reset pos.isLt) ?_) trivial
    exact positions_reset (hs x) pos
  | resetAll x =>
    refine iff_of_true (hiff (f := fun _ => false) rfl rfl ?_ (fun p => ?_) fun p => ?_) trivial
    · rw [resetAll, List.length_map, (hs x).length]
    · rw [bitAt_resetAll, Bool.and_false]
    · exact iff_of_false (Finset.notMem_empty p) Bool.false_ne_true
  | flip x =>
    refine iff_of_true (hiff rfl rfl (length_flip (hs x)) (fun _ => bitAt_flip (hs x))
      fun p => ?_) trivial
    rw [Finset.mem_compl, abs, mem_positions, Bool.not_eq_true, Bool.not_eq_true']
  | subscript x pos =>
    have hread := subscript_eq (hs x) pos.isLt
    constructor
    · rintro ⟨hreply, -⟩
      have heq : subscript (s x) pos = decide (pos ∈ abs s x) := Reply.bit.inj hreply
      rw [hread] at heq
      exact (decide_eq_decide.mp heq).mp
    · intro hseen
      refine ⟨congrArg Reply.bit (hread.trans (decide_eq_decide.mpr ⟨hseen, seen_of_mem⟩)), rfl, hs⟩
  | andAssign available x y =>
    refine iff_of_true (hiff rfl rfl (length_pair _ (hs x) (hs y))
      (fun _ => bitAt_andAssign available (hs x) (hs y)) fun p => ?_) trivial
    rw [Finset.mem_inter, abs, abs, mem_positions, mem_positions, Bool.and_eq_true]
  | orAssign x y =>
    obtain ⟨a, hexec, ha, hunion⟩ := orAssign_spec hs x y
    have hstep : exec s (.orAssign x y) = (update s x a, .done) := by
      rw [exec, hexec]
    rw [Behaves, hstep]
    constructor
    · rintro ⟨-, habs, -⟩
      rw [abs_update] at habs
      have hself := congrFun habs x
      rw [update_self] at hself
      change _ = update (abs s) x (abs s x ∪ abs s y) x at hself
      rw [update_self] at hself
      exact hunion.mp hself
    · intro hseen
      refine ⟨rfl, ?_, valid_update hs x ha⟩
      rw [abs_update, hunion.mpr hseen]
      rfl
  | xorAssign x y =>
    refine iff_of_true (hiff rfl rfl (length_pair _ (hs x) (hs y))
      (fun _ => bitAt_xorAssign (hs x) (hs y)) fun p => ?_) trivial
    rw [Finset.mem_symmDiff, abs, abs, mem_positions, mem_positions]
    cases bitAt (s x) p <;> cases bitAt (s y) p <;> simp
  | countSetBits x =>
    refine iff_of_true ⟨congrArg Reply.number ?_, rfl, hs⟩ trivial
    exact count_eq_card (wordBits_pos N) ((hs x).length ▸ size_le N) (hs x).within
  | equal x y =>
    refine iff_of_true ⟨congrArg Reply.bit ?_, rfl, hs⟩ trivial
    rw [equal, Bool.eq_iff_iff, beq_iff_eq, decide_eq_true_iff]
    constructor
    · intro h
      rw [abs, abs, h]
    · intro h
      exact positions_injective (wordBits_pos N) ((hs x).length.trans (hs y).length.symm)
        (hs x).within (hs y).within h

theorem exec_valid (hs : ∀ z, Valid (s z)) (c : Call ι N) : ∀ z, Valid ((exec s c).1 z) := by
  by_cases hor : ∃ x y, c = .orAssign x y
  · obtain ⟨x, y, rfl⟩ := hor
    obtain ⟨a, hexec, ha, -⟩ := orAssign_spec hs x y
    change ∀ z, Valid (orAssign s x y z)
    rw [hexec]
    exact valid_update hs x ha
  · by_cases hread : ∃ x pos, c = .subscript x pos
    · obtain ⟨x, pos, rfl⟩ := hread
      exact hs
    · refine ((behaves_iff hs c).mpr ?_).2.2
      cases c
      case orAssign x y => exact absurd ⟨x, y, rfl⟩ hor
      case subscript x pos => exact absurd ⟨x, pos, rfl⟩ hread
      all_goals trivial

end Steps

/-- In every run from empty sets no call sets a bit at or above `N`, and the calls behave as on
sets of positions exactly when `operator[]` and `operator|=` come upon members only. -/
theorem behaves_as_sets (calls : List (Call ι N)) :
    Library.Calls.Guarded step (fun s c => ∀ z, Valid ((exec s c).1 z))
      (fun _ : ι => empty N) calls ∧
    (Library.Calls.Guarded step Behaves (fun _ : ι => empty N) calls ↔
      Library.Calls.Guarded step ReadsMembers (fun _ : ι => empty N) calls) := by
  have hempty : ∀ z : ι, Valid ((fun _ : ι => empty N) z) := fun _ =>
    ⟨length_empty, fun _ _ => bitAt_empty⟩
  have hall : Library.Calls.Guarded step (fun _ _ => True) (fun _ : ι => empty N) calls :=
    Library.Calls.guarded_of_forall (fun _ _ _ => trivial) _
  have hstep : ∀ (s : World ι N) c s' r, (∀ z, Valid (s z)) → step s c = .ok (s', r) →
      ∀ z, Valid (s' z) := by
    intro s c s' r hs h
    obtain ⟨rfl, -⟩ := Prod.mk.inj (Except.ok.inj h)
    exact exec_valid hs c
  constructor
  · exact (Library.Calls.guarded_congr (fun s : World ι N => ∀ z, Valid (s z))
      (fun s c hs _ => iff_true_intro (exec_valid hs c))
      (fun s c s' r hs _ _ hx => hstep s c s' r hs hx) hempty hall).mpr hall
  · exact Library.Calls.guarded_congr (fun s : World ι N => ∀ z, Valid (s z))
      (fun s c hs _ => behaves_iff hs c) (fun s c s' r hs _ _ hx => hstep s c s' r hs hx) hempty
      hall

section Examples

theorem seventy_pos : 0 < 70 := by decide

theorem seventy_fits : 70 + 63 < 2 ^ 64 := by decide

def seventy : Width := ⟨70, seventy_pos, seventy_fits⟩

theorem three_lt : 3 < seventy.size := by decide

theorem five_lt : 5 < seventy.size := by decide

/-- Of two words, position 3 reads as set beside a set position 5, and `|=` adds nothing from
position 2 on. -/
theorem reads_beside_members : ¬Library.Calls.Guarded step Behaves (fun _ : Bool => empty seventy)
        [.set true ⟨5, five_lt⟩ true, .subscript true ⟨3, three_lt⟩] ∧
      ¬Library.Calls.Guarded step Behaves (fun _ : Bool => empty seventy)
        [.set true ⟨5, five_lt⟩ true, .orAssign false true] := by
  constructor
  · rintro ⟨-, h⟩
    obtain ⟨⟨hreply, -⟩, -⟩ := h _ _ rfl
    exact absurd hreply (by decide +kernel)
  · rintro ⟨-, h⟩
    obtain ⟨⟨-, habs, -⟩, -⟩ := h _ _ rfl
    exact absurd (congrFun habs false) (by decide +kernel)

end Examples

end Equilibrium.BetterBitSet
