import WireGrammar.Codec
import WireGrammar.Proofs.Decode.Evaluation
import WireGrammar.Proofs.Routine.CallGraph

/-!
# Decoding ends

Without a reference cycle that avoids every array, decoding ends on every input.  Calls outside
arrays lower the rank of the type.  Elements of an array are only reached behind its header, and the
reader never gets back before that: not even when a failing element is dropped, its error forgotten
and the reader moved to the end of the array.  So elements have fewer bytes left than the array had,
and under an error arrays have no elements at all.

* `DecodeOp.run_ends`, `Program.DecodeRank.decode_ends` — operations and routines end.
* `Codec.exists_decodeFrom` — the calls that `Codec.decodeFrom` allows for are enough on every
  reader; `Codec.exists_zero` says the same of zero values.
* `Codec.decode_terminates` — decoding whole byte sequences ends, by the rules without bounds.
-/

set_option autoImplicit false
namespace WireGrammar

/-! ## Steps that end -/

namespace DecodeM

variable {α β : Type} {m : DecodeM α} {k : α → DecodeM β} {r : Reader}

/-- The step has a result on the reader `r`. -/
def Ends (m : DecodeM α) (r : Reader) : Prop :=
  ∃ x, m.run r = some x

theorem Ends.bind (hm : Ends m r) (hk : ∀ a r', m.run r = some (a, r') → Ends (k a) r') :
    Ends (m >>= k) r := by
  obtain ⟨⟨a, r'⟩, ha⟩ := hm
  obtain ⟨x, hx⟩ := hk a r' ha
  exact ⟨x, run_bind_eq_some.2 ⟨a, r', ha, hx⟩⟩

/-- A step that always has a result does so before anything. -/
theorem Ends.then (hm : Ends m r) (hk : ∀ a r', Ends (k a) r') : Ends (m >>= k) r :=
  hm.bind fun a r' _ => hk a r'

theorem ends_pure (a : α) (r : Reader) : Ends (pure a) r := ⟨_, rfl⟩

theorem ends_get (r : Reader) : Ends (get : DecodeM Reader) r := ⟨_, rfl⟩

theorem ends_modify (f : Reader → Reader) (r : Reader) : Ends (modify f : DecodeM PUnit) r :=
  ⟨_, rfl⟩

theorem ends_modifyGet (f : Reader → α × Reader) (r : Reader) :
    Ends (modifyGet f : DecodeM α) r := ⟨_, rfl⟩

end DecodeM

open DecodeM

theorem collect_ends {item : DecodeM Value} (hadv : Advancing item) :
    ∀ (n : Nat) (acc : List Value) (r : Reader), (∀ r', r.Advances r' → Ends item r') →
      Ends (collect item n acc) r
  | 0, acc, r, _ => ends_pure _ r
  | n + 1, acc, r, h => by
    rw [collect]
    refine (h r (.refl r)).bind fun v r' hv => (ends_get r').bind fun s r'' hget => ?_
    cases hget
    split
    · exact ends_pure _ _
    · exact collect_ends hadv n _ _ fun r'' hr'' => h r'' ((hadv r v _ hv).trans hr'')

theorem collectWithin_ends {item : DecodeM Value} (hadv : Advancing item) (stop : Nat) :
    ∀ (fuel : Nat) (acc : List Value) (r : Reader), (∀ r', r.Advances r' → Ends item r') →
      Ends (collectWithin item stop fuel acc) r
  | 0, acc, r, _ => ends_pure _ r
  | fuel + 1, acc, r, h => by
    rcases Nat.lt_or_ge r.offset stop with hlt | hge
    · obtain ⟨⟨v, r'⟩, hv⟩ := h r (.refl r)
      rw [Ends, run_collectWithin_succ hlt hv]
      split
      · exact ⟨_, rfl⟩
      · split
        · exact ⟨_, rfl⟩
        · exact collectWithin_ends hadv stop fuel _ r' fun r'' hr'' =>
            h r'' ((hadv r v r' hv).trans hr'')
    · exact ⟨_, run_collectWithin_of_le hge acc _⟩

/-! ## Operations -/

section Operations

variable {call : String → DecodeM Value}

/-- Behind the header of an array that has elements there is less left than before it. -/
theorem Reader.remaining_lt_of_readInt {r start : Reader} {n : BitVec IntKind.int32.bits}
    (h : r.readInt .int32 = (n, start)) (hn : n.toInt.toNat ≠ 0) :
    start.remaining < r.remaining := by
  rcases r.readInt_cases .int32 with ⟨-, hle, hstart⟩ | ⟨hzero, -⟩
  · rw [h] at hstart
    change 4 ≤ r.remaining at hle
    change start = { r with offset := r.offset + 4 } at hstart
    rw [Reader.remaining] at hle
    rw [hstart, Reader.remaining, Reader.remaining]
    simp only
    omega
  · rw [h] at hzero
    change n = 0#32 at hzero
    exact absurd (by rw [hzero]; rfl) hn

mutual

/-- **An operation ends** if its calls outside arrays do from here on, and all calls do where fewer
bytes are left. -/
theorem DecodeOp.run_ends (hadv : ∀ name, Advancing (call name)) :
    ∀ (op : DecodeOp) (r : Reader),
      (∀ name ∈ op.inlineCalls, ∀ r', r.Advances r' → Ends (call name) r') →
      (∀ name r', r'.remaining < r.remaining → Ends (call name) r') → Ends (op.run call) r
  | .read p, r, _, _ => by
    rw [run]
    exact ends_modifyGet _ r
  | .readAlias typeName p, r, _, _ => by
    rw [run]
    exact (ends_modifyGet _ r).then fun _ _ => ends_pure _ _
  | .call name, r, hinline, _ => by
    rw [run]
    exact hinline name (by simp [inlineCalls]) r (.refl r)
  | .struct ops, r, hinline, hdeep => by
    rw [run]
    rw [inlineCalls] at hinline
    exact (runFields_ends hadv ops [] r hinline hdeep).then fun _ _ => ends_pure _ _
  | .framed framing signed verify body, r, hinline, hdeep => by
    rw [run]
    rw [inlineCalls] at hinline
    refine (ends_modifyGet _ r).bind fun slot start hslot => ?_
    refine (ends_get start).bind fun _ _ hget => ?_
    cases hget
    have hstart : r.Advances start :=
      advancing_modifyGet (fun r => r.advances_readInt _) r slot start hslot
    refine Ends.then ?_ fun fields r' => ?_
    · exact runFields_ends hadv body _ start
        (fun name hn r' hr' => hinline name hn r' (hstart.trans hr'))
        (fun name r' hr' => hdeep name r' (hr'.trans_le hstart.remaining_le))
    · split
      · exact (ends_modify _ r').then fun _ _ => ends_pure _ _
      · exact ends_pure _ _
  | .lengthArray element, r, _, hdeep => by
    rw [run]
    refine (ends_modifyGet _ r).bind fun count start hcount => ?_
    refine Ends.then ?_ fun _ _ => ends_pure _ _
    rw [run_modifyGet, Option.some.injEq] at hcount
    by_cases hzero : count.toInt.toNat = 0
    · rw [hzero]
      exact ends_pure _ _
    · have hlt := Reader.remaining_lt_of_readInt hcount hzero
      exact collect_ends (run_advancing hadv element) _ _ _ fun r' hr' =>
        run_ends_element hadv element hdeep (hr'.remaining_le.trans_lt hlt)
  | .sizeArray element, r, _, hdeep => by
    rw [run]
    refine (ends_modifyGet _ r).bind fun size start hsize => ?_
    refine (ends_get start).bind fun _ _ hget => ?_
    cases hget
    split
    · exact ends_pure _ _
    · refine Ends.then ?_ fun _ _ => ends_pure _ _
      rw [run_modifyGet, Option.some.injEq] at hsize
      by_cases hzero : size.toInt.toNat = 0
      · rw [hzero]
        exact ends_pure _ _
      · have hlt := Reader.remaining_lt_of_readInt hsize hzero
        exact collectWithin_ends (run_advancing hadv element) _ _ _ _ fun r' hr' =>
          run_ends_element hadv element hdeep (hr'.remaining_le.trans_lt hlt)
  | .unsupported owner, r, _, _ => by
    rw [run]
    exact (ends_modify _ r).then fun _ _ => ends_pure _ _

/-- The elements of an array may call anything, since fewer bytes are left. -/
theorem DecodeOp.run_ends_element (hadv : ∀ name, Advancing (call name)) (element : DecodeOp)
    {r r' : Reader} (hdeep : ∀ name r', r'.remaining < r.remaining → Ends (call name) r')
    (hlt : r'.remaining < r.remaining) : Ends (element.run call) r' :=
  run_ends hadv element r'
    (fun name _ r'' hr'' => hdeep name r'' (hr''.remaining_le.trans_lt hlt))
    (fun name r'' hr'' => hdeep name r'' (hr''.trans hlt))

theorem DecodeOp.runFields_ends (hadv : ∀ name, Advancing (call name)) :
    ∀ (ops : List (Field DecodeOp)) (fields : List (Field Value)) (r : Reader),
      (∀ name ∈ inlineCallsOfFields ops, ∀ r', r.Advances r' → Ends (call name) r') →
      (∀ name r', r'.remaining < r.remaining → Ends (call name) r') →
      Ends (runFields call fields ops) r
  | [], fields, r, _, _ => by
    rw [runFields]
    exact ends_pure _ r
  | ⟨name, op⟩ :: ops, fields, r, hinline, hdeep => by
    rw [runFields]
    rw [inlineCallsOfFields] at hinline
    refine Ends.bind ?_ fun v r' hv => ?_
    · exact run_ends hadv op r (fun n hn => hinline n (List.mem_append_left _ hn)) hdeep
    · have hr' := run_advancing hadv op r v r' hv
      exact runFields_ends hadv ops _ r'
        (fun n hn r'' hr'' => hinline n (List.mem_append_right _ hn) r'' (hr'.trans hr''))
        (fun n r'' hr'' => hdeep n r'' (hr''.trans_le hr'.remaining_le))

end

end Operations

mutual

/-- A zero value ends if those that are called outside arrays do. -/
theorem DecodeOp.exists_zero {call : String → Option Value} :
    ∀ op : DecodeOp, (∀ name ∈ op.inlineCalls, ∃ v, call name = some v) →
      ∃ v, op.zero call = some v
  | .read p, _ => ⟨_, by rw [zero]⟩
  | .readAlias typeName p, _ => ⟨_, by rw [zero]⟩
  | .call name, h => by
    rw [zero]
    exact h name (by simp [inlineCalls])
  | .struct ops, h => by
    rw [inlineCalls] at h
    obtain ⟨fields, hfields⟩ := exists_zeroFields ops [] h
    exact ⟨_, by rw [zero, hfields, Option.map_some]⟩
  | .framed framing signed verify body, h => by
    rw [inlineCalls] at h
    obtain ⟨fields, hfields⟩ := exists_zeroFields body _ h
    exact ⟨_, by rw [zero, hfields, Option.map_some]⟩
  | .lengthArray element, _ => ⟨_, by rw [zero]⟩
  | .sizeArray element, _ => ⟨_, by rw [zero]⟩
  | .unsupported owner, _ => ⟨_, by rw [zero]⟩

theorem DecodeOp.exists_zeroFields {call : String → Option Value} :
    ∀ (ops : List (Field DecodeOp)) (fields : List (Field Value)),
      (∀ name ∈ inlineCallsOfFields ops, ∃ v, call name = some v) →
      ∃ fields', zeroFields call fields ops = some fields'
  | [], fields, _ => ⟨fields, by rw [zeroFields]⟩
  | ⟨name, op⟩ :: ops, fields, h => by
    rw [inlineCallsOfFields] at h
    obtain ⟨v, hv⟩ := exists_zero op fun n hn => h n (List.mem_append_left _ hn)
    obtain ⟨fields', hfields'⟩ := exists_zeroFields ops (Fields.insert name v fields)
      fun n hn => h n (List.mem_append_right _ hn)
    exact ⟨fields', by rw [zeroFields, hv]; exact hfields'⟩

end

/-! ## Programs -/

namespace Program

/-- A rank of names, at most the number of routines, that every call of a decode routine outside
arrays lowers. -/
structure DecodeRank (p : Program) (rank : String → Nat) : Prop where
  le : ∀ a, rank a ≤ p.routines.length
  lt : ∀ {a : String} {t : Routine}, p.routine? a = some t → ∀ b ∈ t.decode.inlineCalls,
    rank b < rank a

variable {p : Program} {rank : String → Nat}

/-- **Enough calls for every input.**  A call outside arrays lowers the rank, one in an array the
number of bytes that are left. -/
theorem DecodeRank.decode_ends (h : p.DecodeRank rank) :
    ∀ (fuel : Nat) (name : String) (r : Reader),
      (p.routines.length + 1) * r.remaining + rank name < fuel → Ends (p.decode fuel name) r
  | 0, name, r, hfuel => absurd hfuel (Nat.not_lt_zero _)
  | fuel + 1, name, r, hfuel => by
    rw [decode]
    split
    · next t ht =>
      refine t.decode.run_ends (p.decode_advancing fuel) r (fun b hb r' hr' => ?_)
        (fun b r' hr' => ?_)
      · have hrank := h.lt ht b hb
        have hmul := Nat.mul_le_mul_left (p.routines.length + 1) hr'.remaining_le
        exact h.decode_ends fuel b r' (by omega)
      · have hrank := h.le b
        have hmul := Nat.mul_le_mul_left (p.routines.length + 1) (Nat.succ_le_of_lt hr')
        rw [Nat.mul_succ] at hmul
        exact h.decode_ends fuel b r' (by omega)
    · exact (ends_modify _ r).then fun _ _ => ends_pure _ _

theorem DecodeRank.exists_zero (h : p.DecodeRank rank) :
    ∀ (fuel : Nat) (name : String), rank name < fuel → ∃ v, p.zero fuel name = some v
  | 0, name, hfuel => absurd hfuel (Nat.not_lt_zero _)
  | fuel + 1, name, hfuel => by
    rw [zero]
    split
    · next t ht =>
      refine t.decode.exists_zero fun b hb => h.exists_zero fuel b ?_
      have hrank := h.lt ht b hb
      omega
    · exact ⟨_, rfl⟩

end Program

theorem Schema.Grounded.exists_decodeRank {s : Schema} {verifyCrc : Bool} {p : Program}
    (hs : s.Grounded) (hp : s.emit verifyCrc = .ok p) : ∃ rank, p.DecodeRank rank := by
  obtain ⟨rank, hle, hlt⟩ := (hs.program hp).exists_rank
  refine ⟨rank, hle, fun {a t} ht b hb => hlt a b ⟨t, ht, ?_⟩⟩
  rwa [s.mirror_of_emit hp ht, EncodeOp.inlineCalls_mirror] at hb

/-! ## Codecs -/

namespace Codec

variable {s : Schema} {verifyCrc : Bool} {c : Codec} {typeName : String}

/-- **Decoding has enough calls on every reader**, wherever it stands and whatever its error, and
its result is the one that the rules without bounds give. -/
theorem exists_decodeFrom (hp : s.emit verifyCrc = .ok c.program) (hs : s.Grounded)
    (ht : (c.program.routine? typeName).isSome) (r : Reader) :
    ∃ v r', Decodes c.program (.call typeName) r v r' ∧ c.decodeFrom typeName r = .ok (v, r') := by
  obtain ⟨t, ht⟩ := Option.isSome_iff_exists.1 ht
  obtain ⟨rank, hrank⟩ := hs.exists_decodeRank hp
  have hfuel : (c.program.routines.length + 1) * r.remaining + rank typeName <
      c.callBound * (r.remaining + 1) := by
    have hle := hrank.le typeName
    rw [callBound, Nat.mul_succ]
    omega
  obtain ⟨⟨v, r'⟩, hv⟩ := hrank.decode_ends _ typeName r hfuel
  refine ⟨v, r', Program.decodes_of_decode _ _ _ _ _ hv, ?_⟩
  rw [decodeFrom, ht]
  simp only [hv]

/-- Every type with a routine has a zero value. -/
theorem exists_zero (hp : s.emit verifyCrc = .ok c.program) (hs : s.Grounded)
    (ht : (c.program.routine? typeName).isSome) : ∃ v, c.zero typeName = .ok v := by
  obtain ⟨t, ht⟩ := Option.isSome_iff_exists.1 ht
  obtain ⟨rank, hrank⟩ := hs.exists_decodeRank hp
  obtain ⟨v, hv⟩ := hrank.exists_zero c.callBound typeName (Nat.lt_succ_of_le (hrank.le typeName))
  refine ⟨v, ?_⟩
  rw [zero, ht]
  simp only [hv]

/-- What the rules without bounds give is what a codec computes. -/
theorem decodeFrom_of_decodes (hp : s.emit verifyCrc = .ok c.program) (hs : s.Grounded)
    (ht : (c.program.routine? typeName).isSome) {r r' : Reader} {v : Value}
    (h : Decodes c.program (.call typeName) r v r') : c.decodeFrom typeName r = .ok (v, r') := by
  obtain ⟨v', r'', h', hrun⟩ := exists_decodeFrom hp hs ht r
  obtain ⟨rfl, rfl⟩ := h.unique h'
  exact hrun

/-- **Decoding ends on every input.**  For every type with a routine and all bytes whatsoever there
is a finite derivation by the rules without bounds, only one result has one, and it decides the
answer of the codec. -/
theorem decode_terminates (hp : s.emit verifyCrc = .ok c.program) (hs : s.Grounded)
    (ht : (c.program.routine? typeName).isSome) (bytes : ByteArray) :
    ∃ v r', Decodes c.program (.call typeName) { buffer := bytes } v r' ∧
      (∀ v' r'', Decodes c.program (.call typeName) { buffer := bytes } v' r'' →
        v' = v ∧ r'' = r') ∧
      c.decode typeName bytes = ((complete r').mapError .decode).map fun _ => v := by
  obtain ⟨v, r', h, hrun⟩ := exists_decodeFrom hp hs ht { buffer := bytes }
  refine ⟨v, r', h, fun v' r'' h' => h'.unique h, ?_⟩
  simp only [decode, hrun]
  cases complete r' <;> rfl

/-- A tree whose size array promises more than there is. -/
theorem decode_terminates_tree :
    ∃ v r', Decodes Tree.program (.call "Top")
      { buffer := ⟨#[0, 0, 0, 9, 1, 2, 3, 4, 5, 127, 0, 0, 0, 6]⟩ } v r' := by
  obtain ⟨v, r', h, -⟩ := decode_terminates (c := { program := Tree.program }) Tree.emit_schema
    Tree.grounded (show (Tree.program.routine? "Top").isSome from rfl)
    ⟨#[0, 0, 0, 9, 1, 2, 3, 4, 5, 127, 0, 0, 0, 6]⟩
  exact ⟨v, r', h⟩

end Codec
end WireGrammar
