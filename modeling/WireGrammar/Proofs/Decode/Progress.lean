import WireGrammar.Routine.Decode

/-!
# Decoding moves forward

Decoding never changes the buffer, and seen from where an operation starts it never moves back.
Inside a size array the reader does go back, from where a failing element stopped to the end of the
array; but that end lies behind the start of the array.

* `Reader.Advances` — from one reader to a later one: the same buffer, not further back, and not
  past the end unless it was there before.
* `DecodeM.Advancing` — a step after which the reader has advanced.
* `DecodeOp.run_advancing`, `Program.decode_advancing` — operations and routines only advance.
-/

set_option autoImplicit false
namespace WireGrammar

/-! ## Readers -/

/-- The reader `r'` is at the same place as `r` or further on. -/
structure Reader.Advances (r r' : Reader) : Prop where
  buffer_eq : r'.buffer = r.buffer
  offset_le : r.offset ≤ r'.offset
  inBounds : r.offset ≤ r.buffer.size → r'.offset ≤ r.buffer.size

namespace Reader

theorem Advances.refl (r : Reader) : r.Advances r :=
  ⟨rfl, Nat.le_refl _, id⟩

theorem Advances.trans {r r' r'' : Reader} (h : r.Advances r') (h' : r'.Advances r'') :
    r.Advances r'' where
  buffer_eq := h'.buffer_eq.trans h.buffer_eq
  offset_le := Nat.le_trans h.offset_le h'.offset_le
  inBounds hr := by
    have := h'.inBounds (by rw [h.buffer_eq]; exact h.inBounds hr)
    rwa [h.buffer_eq] at this

/-- What is left never grows. -/
theorem Advances.remaining_le {r r' : Reader} (h : r.Advances r') : r'.remaining ≤ r.remaining := by
  have hoff := h.offset_le
  rw [remaining, remaining, h.buffer_eq]
  omega

/-- An error does not move the reader. -/
theorem advances_setError (r : Reader) (e : Option DecodeError) : r.Advances (r.setError e) :=
  ⟨rfl, Nat.le_refl _, id⟩

theorem advances_fail (r : Reader) (e : DecodeError) : r.Advances (r.fail e) := by
  unfold fail
  split
  · exact .refl r
  · exact advances_setError r (some e)

theorem advances_take (r : Reader) (n : Nat) : r.Advances (r.take n).2 := by
  unfold take
  split
  · exact .refl r
  · split
    · next h =>
      rw [remaining] at h
      exact ⟨rfl, Nat.le_add_right _ _, fun hr => by simp only; omega⟩
    · exact advances_setError r _

theorem advances_readInt (r : Reader) (k : IntKind) : r.Advances (r.readInt k).2 := by
  have h := r.advances_take k.bytes
  rw [readInt]
  split
  · next b r' heq => rwa [heq] at h
  · next r' heq => rwa [heq] at h

theorem advances_readText (r : Reader) : r.Advances r.readText.2 := by
  have h := r.advances_readInt .uint16
  generalize hn : r.readInt .uint16 = x at h
  have h' := h.trans (x.2.advances_take x.1.toNat)
  rw [readText, hn]
  simp only
  split
  · next r' heq => rwa [heq] at h'
  · next b r' heq =>
    rw [heq] at h'
    split
    · exact h'
    · exact h'.trans (r'.advances_setError _)

theorem advances_readBytes (r : Reader) : r.Advances r.readBytes.2 := by
  have h := r.advances_readInt .int32
  generalize hn : r.readInt .int32 = x at h
  have h' := h.trans (x.2.advances_take x.1.toInt.toNat)
  rw [readBytes, hn]
  simp only
  split
  · next r' heq => rwa [heq] at h'
  · next b r' heq => rwa [heq] at h'

theorem advances_readPrimitive (r : Reader) (p : Primitive) :
    r.Advances (r.readPrimitive p).2 := by
  cases p with
  | int k => exact r.advances_readInt k
  | string => exact r.advances_readText
  | bytes => exact r.advances_readBytes

theorem advances_verify (r : Reader) (framing : Framing) (signed : Bool)
    (slot : BitVec (IntKind.word signed).bits) (start : Nat) :
    r.Advances (r.verify framing signed slot start) := by
  unfold verify
  split
  · exact .refl r
  · simp only
    split
    · exact .refl r
    · exact r.advances_setError _
  · simp only
    split
    · exact .refl r
    · exact r.advances_setError _

/-- **Reading an integer** either takes its bytes, which were there, or gives zero and leaves an
error. -/
theorem readInt_cases (r : Reader) (k : IntKind) :
    (r.error = none ∧ k.bytes ≤ r.remaining ∧
      (r.readInt k).2 = { r with offset := r.offset + k.bytes }) ∨
    ((r.readInt k).1 = 0#k.bits ∧ (r.readInt k).2.error.isSome) := by
  by_cases herr : r.error.isSome
  · rw [readInt_of_error herr]
    exact .inr ⟨rfl, herr⟩
  · have hnone : r.error = none := Option.not_isSome_iff_eq_none.1 herr
    rw [readInt, take, hnone]
    by_cases hn : k.bytes ≤ r.remaining
    · simp only [if_pos hn]
      exact .inl ⟨trivial, hn, trivial⟩
    · simp only [if_neg hn]
      exact .inr ⟨trivial, rfl⟩

end Reader

/-! ## Steps of decoding -/

namespace DecodeM

variable {α β : Type} {m : DecodeM α} {k : α → DecodeM β}

/-- **Steps one after the other**: the second runs on the reader that the first leaves. -/
theorem run_bind_eq_some {r : Reader} {x : β × Reader} :
    (m >>= k).run r = some x ↔ ∃ a r', m.run r = some (a, r') ∧ (k a).run r' = some x := by
  rw [StateT.run_bind]
  constructor
  · intro h
    obtain ⟨⟨a, r'⟩, hm, hk⟩ := Option.bind_eq_some_iff.1 h
    exact ⟨a, r', hm, hk⟩
  · rintro ⟨a, r', hm, hk⟩
    exact Option.bind_eq_some_iff.2 ⟨(a, r'), hm, hk⟩

@[simp] theorem run_get (r : Reader) : (get : DecodeM Reader).run r = some (r, r) := rfl

@[simp] theorem run_modifyGet (f : Reader → α × Reader) (r : Reader) :
    (modifyGet f : DecodeM α).run r = some (f r) := rfl

/-- After the step the reader has advanced. -/
def Advancing (m : DecodeM α) : Prop :=
  ∀ r a r', m.run r = some (a, r') → r.Advances r'

theorem advancing_pure (a : α) : Advancing (pure a) := by
  intro r a' r' h
  cases h
  exact .refl r

theorem advancing_get : Advancing (get : DecodeM Reader) := by
  intro r a r' h
  cases h
  exact .refl r

theorem advancing_modify {f : Reader → Reader} (hf : ∀ r : Reader, r.Advances (f r)) :
    Advancing (modify f : DecodeM PUnit) := by
  intro r a r' h
  cases h
  exact hf r

theorem advancing_modifyGet {f : Reader → α × Reader} (hf : ∀ r : Reader, r.Advances (f r).2) :
    Advancing (modifyGet f : DecodeM α) := by
  intro r a r' h
  have h' := hf r
  rw [run_modifyGet, Option.some.injEq] at h
  rwa [h] at h'

theorem Advancing.bind (hm : Advancing m) (hk : ∀ a, Advancing (k a)) : Advancing (m >>= k) := by
  intro r b r'' h
  obtain ⟨a, r', hr', hr''⟩ := run_bind_eq_some.1 h
  exact (hm r a r' hr').trans (hk a r' b r'' hr'')

end DecodeM

open DecodeM

theorem collect_advancing {item : DecodeM Value} (hi : Advancing item) :
    ∀ (n : Nat) (acc : List Value), Advancing (collect item n acc)
  | 0, acc => advancing_pure _
  | n + 1, acc => by
    rw [collect]
    refine hi.bind fun v => advancing_get.bind fun r => ?_
    split
    · exact advancing_pure _
    · exact collect_advancing hi n _

/-- What one round of a size array can do: stop at the end, stop at a failing item (which may move
the reader to the end of the array), stop after an item that takes nothing, or go on behind an
item. -/
theorem collectWithin_succ_cases {item : DecodeM Value} {stop fuel : Nat} {acc vs : List Value}
    {r r'' : Reader} (h : (collectWithin item stop (fuel + 1) acc).run r = some (vs, r'')) :
    (stop ≤ r.offset ∧ vs = acc.reverse ∧ r'' = r) ∨
    (r.offset < stop ∧ ∃ v r', item.run r = some (v, r') ∧
      ((∃ e, r'.error = some e ∧ vs = acc.reverse ∧
          r'' = if e.isRecoverable then (r'.setError none).skipTo stop else r') ∨
        (r'.error = none ∧ r'.offset = r.offset ∧ vs = (v :: acc).reverse ∧ r'' = r') ∨
        (r'.error = none ∧ r'.offset ≠ r.offset ∧
          (collectWithin item stop fuel (v :: acc)).run r' = some (vs, r'')))) := by
  rw [collectWithin] at h
  obtain ⟨_, _, hget, h⟩ := run_bind_eq_some.1 h
  cases hget
  by_cases hstop : stop ≤ r.offset
  · rw [if_pos hstop] at h
    cases h
    exact .inl ⟨hstop, rfl, rfl⟩
  · rw [if_neg hstop] at h
    obtain ⟨v, r', hitem, h⟩ := run_bind_eq_some.1 h
    obtain ⟨_, _, hget, h⟩ := run_bind_eq_some.1 h
    cases hget
    refine .inr ⟨Nat.lt_of_not_le hstop, v, r', hitem, ?_⟩
    cases herr : r'.error with
    | some e =>
      simp only [herr] at h
      refine .inl ⟨e, rfl, ?_⟩
      by_cases hrec : e.isRecoverable
      · rw [if_pos hrec] at h
        cases h
        exact ⟨rfl, by rw [if_pos hrec]⟩
      · rw [if_neg hrec] at h
        cases h
        exact ⟨rfl, by rw [if_neg hrec]⟩
    | none =>
      simp only [herr] at h
      by_cases hoff : r'.offset = r.offset
      · rw [if_pos hoff] at h
        cases h
        exact .inr (.inl ⟨rfl, hoff, rfl, rfl⟩)
      · rw [if_neg hoff] at h
        exact .inr (.inr ⟨rfl, hoff, h⟩)

/-- **The rewind of a size array stays behind its start**: from a position inside the buffer the
elements only lead further on. -/
theorem collectWithin_advances {item : DecodeM Value} (hi : Advancing item) {stop : Nat} :
    ∀ {fuel : Nat} {acc vs : List Value} {r r'' : Reader}, r.offset ≤ r.buffer.size →
      (collectWithin item stop fuel acc).run r = some (vs, r'') → r.Advances r''
  | 0, acc, vs, r, r'', _, h => by
    cases h
    exact .refl r
  | fuel + 1, acc, vs, r, r'', hr, h => by
    rcases collectWithin_succ_cases h with ⟨-, -, rfl⟩ | ⟨hlt, v, r', hitem, h⟩
    · exact .refl _
    · have hadv := hi r v r' hitem
      rcases h with ⟨e, -, -, rfl⟩ | ⟨-, -, -, rfl⟩ | ⟨-, -, h⟩
      · split
        · refine ⟨hadv.buffer_eq, ?_, fun _ => ?_⟩
          · simp only [Reader.skipTo, Reader.setError, hadv.buffer_eq]
            omega
          · simp only [Reader.skipTo, Reader.setError, hadv.buffer_eq]
            exact Nat.min_le_right _ _
        · exact hadv
      · exact hadv
      · refine hadv.trans (collectWithin_advances hi ?_ h)
        rw [hadv.buffer_eq]
        exact hadv.inBounds hr

/-- What decoding a size array can do: fail at its header, or read the header and then its
elements. -/
theorem DecodeOp.run_sizeArray_cases {call : String → DecodeM Value} {element : DecodeOp}
    {v : Value} {r r'' : Reader} (h : ((sizeArray element).run call).run r = some (v, r'')) :
    ∃ size r', r.readInt .int32 = (size, r') ∧
      ((r'.error.isSome ∧ v = .list [] ∧ r'' = r') ∨
        (r'.error = none ∧ r.remaining = r'.remaining + 4 ∧ r'.offset ≤ r'.buffer.size ∧
          ∃ vs, v = .list vs ∧
            (collectWithin (element.run call) (r'.offset + size.toInt.toNat) size.toInt.toNat
              []).run r' = some (vs, r''))) := by
  rw [run] at h
  obtain ⟨size, r', hsize, h⟩ := run_bind_eq_some.1 h
  obtain ⟨_, _, hget, h⟩ := run_bind_eq_some.1 h
  cases hget
  rw [run_modifyGet, Option.some.injEq] at hsize
  refine ⟨size, r', hsize, ?_⟩
  by_cases herr : r'.error.isSome
  · rw [if_pos herr] at h
    cases h
    exact .inl ⟨herr, rfl, rfl⟩
  · rw [if_neg herr] at h
    obtain ⟨vs, _, hvs, h⟩ := run_bind_eq_some.1 h
    cases h
    rcases r.readInt_cases .int32 with ⟨-, hle, hr'⟩ | ⟨-, hr'⟩
    · rw [hsize] at hr'
      change 4 ≤ r.remaining at hle
      change r' = { r with offset := r.offset + 4 } at hr'
      rw [Reader.remaining] at hle
      refine .inr ⟨Option.not_isSome_iff_eq_none.1 herr, ?_, ?_, vs, rfl, hvs⟩
      · rw [hr', Reader.remaining, Reader.remaining]
        simp only
        omega
      · rw [hr']
        simp only
        omega
    · rw [hsize] at hr'
      exact absurd hr' herr

section Operations

variable {call : String → DecodeM Value}

mutual

/-- **An operation only advances**, if the routines that it calls do. -/
theorem DecodeOp.run_advancing (hcall : ∀ name, Advancing (call name)) :
    ∀ op : DecodeOp, Advancing (op.run call)
  | .read p => by
    rw [run]
    exact advancing_modifyGet fun r => r.advances_readPrimitive p
  | .readAlias typeName p => by
    rw [run]
    exact (advancing_modifyGet fun r => r.advances_readPrimitive p).bind fun _ => advancing_pure _
  | .call name => by
    rw [run]
    exact hcall name
  | .struct ops => by
    rw [run]
    exact (runFields_advancing hcall ops []).bind fun _ => advancing_pure _
  | .framed framing signed verify body => by
    rw [run]
    refine (advancing_modifyGet fun r => r.advances_readInt _).bind fun slot =>
      advancing_get.bind fun r => (runFields_advancing hcall body _).bind fun fields => ?_
    split
    · exact (advancing_modify fun r' => r'.advances_verify _ _ _ _).bind fun _ => advancing_pure _
    · exact advancing_pure _
  | .lengthArray element => by
    rw [run]
    exact (advancing_modifyGet fun r => r.advances_readInt _).bind fun count =>
      (collect_advancing (run_advancing hcall element) _ _).bind fun _ => advancing_pure _
  | .sizeArray element => by
    intro r v r'' h
    have hheader := r.advances_readInt .int32
    obtain ⟨size, r', hsize, ⟨-, -, rfl⟩ | ⟨-, -, hin, vs, -, h⟩⟩ := run_sizeArray_cases h
    · rwa [hsize] at hheader
    · rw [hsize] at hheader
      exact hheader.trans (collectWithin_advances (run_advancing hcall element) hin h)
  | .unsupported owner => by
    rw [run]
    exact (advancing_modify fun r => r.advances_fail _).bind fun _ => advancing_pure _

theorem DecodeOp.runFields_advancing (hcall : ∀ name, Advancing (call name)) :
    ∀ (ops : List (Field DecodeOp)) (fields : List (Field Value)),
      Advancing (runFields call fields ops)
  | [], fields => by
    rw [runFields]
    exact advancing_pure _
  | ⟨name, op⟩ :: ops, fields => by
    rw [runFields]
    exact (run_advancing hcall op).bind fun _ => runFields_advancing hcall ops _

end

end Operations

/-- **Every routine only advances.** -/
theorem Program.decode_advancing (p : Program) :
    ∀ (fuel : Nat) (name : String), Advancing (p.decode fuel name)
  | 0, name => by
    intro r v r' h
    cases h
  | fuel + 1, name => by
    rw [decode]
    split
    · exact DecodeOp.run_advancing (p.decode_advancing fuel) _
    · exact (advancing_modify fun r => r.advances_fail _).bind fun _ => advancing_pure _

end WireGrammar
