import Equilibrium.Strings.Format
import Equilibrium.Library.Simulation

/-! The formatter on two sinks: a relation that every write keeps is kept by the whole
formatter. A buffer of fixed size holds the front of the text that a string receives. -/

namespace Equilibrium.Format

open Library.Simulation List

variable {σ τ : Type} {R : σ → τ → Prop} {sink : Sink σ} {sink' : Sink τ}

def Sink.Follows (R : σ → τ → Prop) (sink : Sink σ) (sink' : Sink τ) : Prop :=
  ∀ s t data t', R s t → sink'.writeFn t data = some t' →
    ∃ s', sink.writeFn s data = some s' ∧ R s' t'

section Writes

variable (h : sink.Follows R sink')

include h

theorem simulates_writeChar (c : Char) : Simulates R (sink.writeChar c) (sink'.writeChar c) := by
  intro s t a t' hR hy
  obtain ⟨u, hu, heq⟩ := Option.map_eq_some_iff.mp hy
  obtain ⟨rfl, rfl⟩ := Prod.mk.inj heq
  obtain ⟨s', hs', hR'⟩ := h s t [c] u hR hu
  exact ⟨s', by rw [Sink.writeChar, hs']; rfl, hR'⟩

theorem simulates_write (data : List Char) : Simulates R (sink.write data) (sink'.write data) := by
  intro s t a t' hR hy
  rw [Sink.write] at hy
  by_cases hlength : data.length ≠ 0
  · rw [if_pos hlength] at hy
    obtain ⟨u, hu, heq⟩ := Option.map_eq_some_iff.mp hy
    obtain ⟨rfl, rfl⟩ := Prod.mk.inj heq
    obtain ⟨s', hs', hR'⟩ := h s t data u hR hu
    exact ⟨s', by rw [Sink.write, if_pos hlength, hs']; rfl, hR'⟩
  · rw [if_neg hlength] at hy
    cases hy
    exact ⟨s, by rw [Sink.write, if_neg hlength], hR⟩

theorem simulates_writeChars (text : List Char) :
    Simulates R (sink.writeChars text) (sink'.writeChars text) := by
  induction text with
  | nil => exact .pure ()
  | cons c rest ih => exact (simulates_writeChar h c).bind fun _ => ih

theorem simulates_emitFill (c : Char) (n : ℕ) :
    Simulates R (emitFill sink c n) (emitFill sink' c n) := by
  have hloop : ∀ rounds n, Simulates R (emitFillLoop sink c rounds n)
      (emitFillLoop sink' c rounds n) := by
    intro rounds
    induction rounds with
    | zero =>
      intro n
      exact .pure ()
    | succ rounds ih =>
      intro n
      exact .ite ((simulates_write h _).bind fun _ => ih _) (.pure ())
  exact hloop n n

theorem simulates_emitAligned {align fill : Char} {bodyLen width : ℤ}
    {body : Steps σ Unit} {body' : Steps τ Unit} (hbody : Simulates R body body') :
    Simulates R (emitAligned sink align fill bodyLen width body)
      (emitAligned sink' align fill bodyLen width body') := by
  rw [emitAligned, emitAligned]
  generalize (if width > bodyLen then checkedInt (width - bodyLen) else some 0) = pad
  cases pad with
  | none => exact simulates_none
  | some pad =>
    refine .ite hbody (.ite ?_ (.ite ?_ ?_))
    · exact hbody.bind fun _ => simulates_emitFill h fill _
    · exact (simulates_emitFill h fill _).bind fun _ => hbody.bind fun _ =>
        simulates_emitFill h fill _
    · exact (simulates_emitFill h fill _).bind fun _ => hbody

theorem simulates_formatString (data : List Char) (spec : Spec) :
    Simulates R (formatString sink data spec) (formatString sink' data spec) :=
  simulates_emitAligned h (simulates_write h _)

theorem simulates_formatWideString (spec : Spec) (transcoded : List Char) :
    Simulates R (formatWideString sink spec transcoded)
      (formatWideString sink' spec transcoded) :=
  .ite (simulates_formatString h _ _) (.ite (simulates_formatString h _ _) simulates_none)

theorem simulates_formatInteger (abs : UInt64) (negative : Bool) (spec : Spec) :
    Simulates R (formatInteger sink abs negative spec)
      (formatInteger sink' abs negative spec) := by
  refine .ite (simulates_writeChar h _) (.ite ?_ ?_)
  · exact (simulates_writeChars h _).bind fun _ => (simulates_write h _).bind fun _ =>
      (simulates_emitFill h _ _).bind fun _ => simulates_writeChars h _
  · exact simulates_emitAligned h ((simulates_writeChars h _).bind fun _ =>
      (simulates_write h _).bind fun _ => simulates_writeChars h _)

theorem simulates_formatFloat (v : Library.Binary64) (spec : Spec) :
    Simulates R (formatFloat sink v spec) (formatFloat sink' v spec) := by
  rw [formatFloat, formatFloat]
  cases floatText v spec with
  | none => exact simulates_none
  | some text =>
    refine .ite ?_ (simulates_emitAligned h (simulates_write h _))
    cases checkedInt (spec.width - castInt text.length) with
    | none => exact simulates_none
    | some pad =>
      exact (simulates_writeChars h _).bind fun _ => (simulates_emitFill h _ _).bind fun _ =>
        simulates_write h _

theorem simulates_formatArgValue (arg : Arg) (spec : Spec) :
    Simulates R (formatArgValue sink arg spec) (formatArgValue sink' arg spec) := by
  cases arg with
  | none => exact simulates_write h _
  | bool b => exact .ite (simulates_formatInteger h _ _ _) (simulates_formatString h _ _)
  | char c => exact .ite (simulates_formatInteger h _ _ _) (simulates_formatString h _ _)
  | i64 i => exact simulates_formatInteger h _ _ _
  | u64 u => exact simulates_formatInteger h _ _ _
  | f64 d => exact simulates_formatFloat h _ _
  | cStr text => exact simulates_formatString h _ _
  | strSpan text => exact simulates_formatString h _ _
  | u16Str text =>
    cases text with
    | none => exact simulates_formatString h _ _
    | some src => exact simulates_formatWideString h _ _
  | u32Str text =>
    cases text with
    | none => exact simulates_formatString h _ _
    | some src => exact simulates_formatWideString h _ _
  | ptr address =>
    exact simulates_formatInteger h address false { spec with alt := true, type := 'x', sign := '-' }

theorem simulates_formatLoop (args : List Arg) (rounds autoIndex : ℕ) (p : List Char) :
    Simulates R (formatLoop sink args rounds autoIndex p)
      (formatLoop sink' args rounds autoIndex p) := by
  induction rounds generalizing autoIndex p with
  | zero =>
    cases p with
    | nil => exact .pure ()
    | cons c p => exact simulates_none
  | succ rounds ih =>
    cases p with
    | nil => exact .pure ()
    | cons c p =>
      rw [formatLoop]
      refine .ite (.ite ?_ ?_) (.ite ?_ ?_)
      · exact (simulates_writeChar h _).bind fun _ => ih _ _
      · cases (parseField p).1 with
        | none => exact simulates_none
        | some field =>
          dsimp only
          cases args[field.index.getD autoIndex]? with
          | none => exact (simulates_write h _).bind fun _ => ih _ _
          | some arg => exact (simulates_formatArgValue h _ _).bind fun _ => ih _ _
      · exact (simulates_writeChar h _).bind fun _ => ih _ _
      · exact (simulates_write h _).bind fun _ => ih _ _

theorem simulates_formatCore (fmt : Option (List Char)) (args : List Arg) :
    Simulates R (formatCore sink fmt args) (formatCore sink' fmt args) := by
  cases fmt with
  | none => exact .pure ()
  | some fmt => exact simulates_formatLoop h _ _ _ _

end Writes

section FixedBuffer

theorem copyTo_eq (dst : ℕ → Char) (pos : ℕ) (text : List Char) (j : ℕ) : copyTo dst pos text j =
      if pos ≤ j ∧ j < pos + text.length then text[j - pos]?.getD '\x00' else dst j := by
  induction text generalizing dst pos with
  | nil =>
    rw [copyTo, if_neg (by rw [length_nil]; omega)]
  | cons c rest ih =>
    rw [copyTo, ih, length_cons]
    by_cases hpos : j = pos
    · rw [if_neg (by omega), if_pos hpos, if_pos (by omega), hpos, Nat.sub_self]
      rfl
    · by_cases hin : pos + 1 ≤ j ∧ j < pos + 1 + rest.length
      · have hsub : j - pos = j - (pos + 1) + 1 := by omega
        rw [if_pos hin, if_pos (by omega), hsub, getElem?_cons_succ]
      · rw [if_neg hin, if_neg hpos, if_neg (by omega)]

/-- The buffer holds what of the text fits, and the memory behind that is as before. -/
structure Holds (buffer : ℕ → Char) (capacity : ℕ) (s : FixedBufferState) (text : List Char) :
    Prop where
  capacity_eq : s.capacity = capacity
  written : s.written = text.length
  length_le : text.length ≤ kMaxCapacity
  dst : ∀ j, s.dst j = if j < text.length ∧ j < capacity then text[j]?.getD '\x00' else buffer j

theorem fixedBuffer_follows (buffer : ℕ → Char) (capacity : ℕ) :
    fixedBufferSink.Follows (Holds buffer capacity) stringSink := by
  intro s text data text' h hwrite
  obtain ⟨rfl, hwritten, hlength, hdst⟩ := h
  have hfits : text.length + data.length ≤ kMaxCapacity := by
    by_contra hnot
    exact absurd hwrite (by rw [stringSink]; simp only [if_neg hnot]; exact nofun)
  have htext : text' = text ++ data := by
    rw [stringSink] at hwrite
    simp only [if_pos hfits] at hwrite
    exact (Option.some.inj hwrite).symm
  subst htext
  have hmod : (s.written + data.length) % 2 ^ 64 = (text ++ data).length := by
    rw [hwritten, length_append]
    refine Nat.mod_eq_of_lt (Nat.lt_of_le_of_lt hfits ?_)
    rw [kMaxCapacity]
    omega
  refine ⟨fixedBufferWrite s data, rfl, ?_, ?_, ?_, ?_⟩
  · rw [fixedBufferWrite]
    split
    · rfl
    · rfl
  · rw [fixedBufferWrite, ← hmod]
    split
    · rfl
    · rfl
  · rw [length_append]
    exact hfits
  · intro j
    have hfront : j < text.length → (text ++ data)[j]? = text[j]? :=
      fun hj => getElem?_append_left hj
    rw [fixedBufferWrite, length_append]
    by_cases hfull : s.written ≥ s.capacity
    · simp only [if_pos hfull]
      rw [hdst]
      by_cases hj : j < text.length ∧ j < s.capacity
      · rw [if_pos hj, if_pos (by omega), hfront hj.1]
      · rw [if_neg hj, if_neg (by omega)]
    · simp only [if_neg hfull]
      have hcopy : (if data.length < s.capacity - s.written then data.length
          else s.capacity - s.written) = min data.length (s.capacity - s.written) := by
        split
        · omega
        · omega
      rw [hcopy, copyTo_eq, hdst, length_take, hwritten]
      by_cases hj : j < text.length
      · rw [if_neg (by omega), if_pos (by omega), if_pos (by omega), hfront hj]
      · by_cases hin : j < text.length + data.length ∧ j < s.capacity
        · rw [if_pos (by omega), if_pos hin, getElem?_append_right (by omega),
            getElem?_take_of_lt (by omega)]
        · rw [if_neg (by omega), if_neg (by omega), if_neg hin]

/-- `FormatTo` returns the length of the text of `Format` and leaves in the buffer what
fits of that text and a terminator. -/
theorem formatTo_eq {bufferSize : ℕ} (hsize : 1 ≤ bufferSize) (buffer : ℕ → Char)
    (fmt : Option (List Char)) (args : List Arg) {text : List Char}
    (h : format fmt args = some text) : ∃ memory,
      formatTo buffer bufferSize fmt args = some (text.length, memory) ∧
        (∀ j < min text.length (bufferSize - 1), some (memory j) = text[j]?) ∧
        memory (min text.length (bufferSize - 1)) = '\x00' ∧
        ∀ j, min text.length (bufferSize - 1) < j → memory j = buffer j := by
  obtain ⟨⟨⟨⟩, t⟩, hrun, ht⟩ := Option.bind_eq_some_iff.mp h
  obtain rfl := Option.some.inj ht
  have hstart : Holds buffer (bufferSize - 1) ⟨buffer, bufferSize - 1, 0⟩ [] := by
    refine ⟨rfl, rfl, Nat.zero_le _, fun j => ?_⟩
    rw [if_neg (by rw [length_nil]; omega)]
  obtain ⟨s, hs, hcapacity, hwritten, -, hdst⟩ :=
    simulates_formatCore (fixedBuffer_follows buffer (bufferSize - 1)) fmt args _ [] () t hstart hrun
  have hterm : (if s.written < s.capacity then s.written else s.capacity) =
      min t.length (bufferSize - 1) := by
    rw [hwritten, hcapacity]
    split
    · omega
    · omega
  refine ⟨fun j => if j = min t.length (bufferSize - 1) then '\x00' else s.dst j, ?_, ?_, ?_, ?_⟩
  · rw [formatTo, if_neg (by omega)]
    change ((formatCore fixedBufferSink fmt args) ⟨buffer, bufferSize - 1, 0⟩).bind _ = _
    rw [hs, Option.bind_some]
    dsimp only
    rw [hterm, hwritten]
    rfl
  · intro j hj
    dsimp only
    rw [if_neg (by omega), hdst, if_pos (by omega), getElem?_eq_getElem (by omega)]
    rfl
  · exact if_pos rfl
  · intro j hj
    dsimp only
    rw [if_neg (by omega), hdst, if_neg (by omega)]

theorem formatTo_eq_cut : ∃ memory,
    formatTo (fun _ => '#') 4 (some ['a', '{', '}', '{', '{', '}']) [.u64 255] = some (6, memory) ∧
      memory 0 = 'a' ∧ memory 1 = '2' ∧ memory 2 = '5' ∧ memory 3 = '\x00' ∧
      ∀ j > 3, memory j = '#' := by
  have htext : format (some ['a', '{', '}', '{', '{', '}']) [.u64 255] =
      some ['a', '2', '5', '5', '{', '}'] := by decide +kernel
  obtain ⟨memory, hrun, hfront, hterm, hrest⟩ :=
    formatTo_eq (by decide : 1 ≤ 4) (fun _ => '#') _ _ htext
  exact ⟨memory, hrun, Option.some.inj (hfront 0 (by decide)),
    Option.some.inj (hfront 1 (by decide)), Option.some.inj (hfront 2 (by decide)), hterm, hrest⟩

end FixedBuffer

/-! Steps of the formatter that add a text to what a sink has. A sink may have room for a part of
its texts only, as a string has. -/

/-- The sink adds what it takes to its text, which it does as long as there is room. -/
structure Sink.Collects (sink : Sink (List Char)) (room : ℕ → Prop) : Prop where
  takes : ∀ s data, room (s.length + data.length) → sink.writeFn s data = some (s ++ data)
  closed : ∀ m n, m ≤ n → room n → room m

def Adds (room : ℕ → Prop) (x : Steps (List Char) Unit) (text : List Char) : Prop :=
  ∀ s, room (s.length + text.length) → x s = some ((), s ++ text)

variable {room : ℕ → Prop} {sink : Sink (List Char)} {x y : Steps (List Char) Unit}
  {text rest : List Char}

theorem adds_nil : Adds room (pure ()) [] := fun s _ => by
  rw [append_nil]
  rfl

theorem Adds.bind (hsink : sink.Collects room) (hx : Adds room x text) (hy : Adds room y rest) :
    Adds room (x >>= fun _ => y) (text ++ rest) := by
  intro s hs
  rw [length_append] at hs
  have hfirst : room (s.length + text.length) := hsink.closed _ _ (by omega) hs
  have hlast : room ((s ++ text).length + rest.length) :=
    hsink.closed _ _ (by rw [length_append]; omega) hs
  change (x s).bind (fun r => y r.2) = _
  rw [hx s hfirst, Option.bind_some, hy (s ++ text) hlast, append_assoc]

variable (hsink : sink.Collects room)

include hsink

theorem adds_write (data : List Char) : Adds room (sink.write data) data := by
  intro s hs
  rw [Sink.write]
  split
  case isTrue =>
    rw [hsink.takes s data hs]
    rfl
  case isFalse h =>
    rw [length_eq_zero_iff.mp (not_not.mp h), append_nil]

theorem adds_writeChar (c : Char) : Adds room (sink.writeChar c) [c] := by
  intro s hs
  rw [Sink.writeChar, hsink.takes s [c] hs]
  rfl

theorem adds_writeChars (text : List Char) : Adds room (sink.writeChars text) text := by
  induction text with
  | nil => exact adds_nil
  | cons c rest ih => exact (adds_writeChar hsink c).bind hsink ih

theorem adds_emitFill (c : Char) (n : ℕ) : Adds room (emitFill sink c n) (replicate n c) := by
  have hloop : ∀ rounds n, n ≤ rounds →
      Adds room (emitFillLoop sink c rounds n) (replicate n c) := by
    intro rounds
    induction rounds with
    | zero =>
      intro n hn
      rw [Nat.le_zero.mp hn]
      exact adds_nil
    | succ rounds ih =>
      intro n hn
      rw [emitFillLoop]
      by_cases hpos : n > 0
      · rw [if_pos hpos]
        have hchunk : (if n > 32 then 32 else n) ≤ n ∧ 0 < if n > 32 then 32 else n := by
          split <;> omega
        generalize (if n > 32 then 32 else n) = chunk at hchunk ⊢
        have hsplit : replicate n c = replicate chunk c ++ replicate (n - chunk) c := by
          rw [replicate_append_replicate, Nat.add_sub_cancel' hchunk.1]
        rw [hsplit]
        exact (adds_write hsink _).bind hsink (ih (n - chunk) (by omega))
      · rw [if_neg hpos, show n = 0 by omega]
        exact adds_nil
  exact hloop n n (Nat.le_refl n)

omit hsink in
/-- The text between its fill. -/
def padded (align fill : Char) (pad : ℕ) (body : List Char) : List Char :=
  if align = '<' then body ++ List.replicate pad fill
  else if align = '^' then
    List.replicate (pad / 2) fill ++ body ++ List.replicate (pad - pad / 2) fill
  else List.replicate pad fill ++ body

omit hsink in
theorem padded_zero (align fill : Char) (body : List Char) : padded align fill 0 body = body := by
  simp [padded]

theorem adds_emitAligned (align fill : Char) {bodyLen width : ℤ} (hbody : Adds room x text)
    (hpad : width - bodyLen < 2 ^ 31) : Adds room (emitAligned sink align fill bodyLen width x)
      (padded align fill (width - bodyLen).toNat text) := by
  have hchecked : (if width > bodyLen then checkedInt (width - bodyLen) else some 0) =
      some (((width - bodyLen).toNat : ℕ) : ℤ) := by
    split
    case isTrue h =>
      rw [checkedInt, if_pos ⟨by omega, hpad⟩, Int.toNat_of_nonneg (by omega)]
    case isFalse h =>
      rw [Int.toNat_eq_zero.mpr (by omega)]
      rfl
  generalize (width - bodyLen).toNat = pad at hchecked ⊢
  rw [emitAligned, hchecked]
  dsimp only
  by_cases hzero : pad = 0
  case pos =>
    rw [if_pos (by exact_mod_cast hzero), hzero, padded_zero]
    exact hbody
  case neg =>
    rw [if_neg (by exact_mod_cast hzero), padded, Int.toNat_natCast]
    split_ifs with hleft hcentre
    · exact hbody.bind hsink (adds_emitFill hsink fill pad)
    · rw [append_assoc]
      exact (adds_emitFill hsink fill _).bind hsink (hbody.bind hsink (adds_emitFill hsink fill _))
    · exact (adds_emitFill hsink fill pad).bind hsink hbody

section

omit hsink

theorem emitAligned_overflow (align fill : Char) {bodyLen width : ℤ} (x : Steps (List Char) Unit)
    (hpad : 2 ^ 31 ≤ width - bodyLen) : emitAligned sink align fill bodyLen width x = undefined := by
  rw [emitAligned, if_pos (by omega), checkedInt, if_neg (by omega)]

theorem length_padded (align fill : Char) (pad : ℕ) (body : List Char) :
    (padded align fill pad body).length = pad + body.length := by
  rw [padded]
  split_ifs <;> simp only [length_append, length_replicate] <;> omega

theorem length_digitLoop (base : ℕ) (upper : Bool) (room n : ℕ) :
    (digitLoop base upper room n).length ≤ room := by
  induction room generalizing n with
  | zero => exact Nat.le_refl 0
  | succ room ih =>
    rw [digitLoop]
    split
    case isTrue => exact Nat.zero_le _
    case isFalse => exact Nat.succ_le_succ (ih (n / base))

end

end Equilibrium.Format
