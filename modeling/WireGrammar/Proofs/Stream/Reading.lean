import WireGrammar.Stream

/-!
# Reading off a stream

However a stream hands out its bytes, reading exactly as many as are wanted gives the same bytes.

* `Stream.Holds s b` — the bytes that have not been read are `b`.
* `Stream.Holds.feed`, `Stream.Holds.read` — what appending and a single call do to them.
* `Stream.Holds.readExact` — reading exactly `a.size` bytes off a stream that begins with `a` gives
  `a`, for every chunking.
* `Stream.Holds.readExact_of_lt` — a stream that holds fewer bytes than wanted is read to its end.
-/

set_option autoImplicit false
namespace WireGrammar
namespace Stream

/-- The bytes that have not been read are `b`. -/
def Holds (s : Stream) (b : ByteArray) : Prop :=
  ∃ taken, s.bytes = taken ++ b ∧ s.position = taken.size

variable {s : Stream} {a b c : ByteArray}

theorem Holds.available (h : s.Holds b) : s.available = b.size := by
  obtain ⟨taken, hbytes, hposition⟩ := h
  rw [Stream.available, hbytes, hposition, ByteArray.size_append, Nat.add_sub_cancel_left]

theorem Holds.pending (h : s.Holds b) : s.pending = b := by
  obtain ⟨taken, hbytes, hposition⟩ := h
  rw [Stream.pending, hbytes, hposition]
  exact ByteArray.extract_append_eq_right rfl ByteArray.size_append

theorem Holds.feed (h : s.Holds b) (c : ByteArray) : (s.feed c).Holds (b ++ c) := by
  obtain ⟨taken, hbytes, hposition⟩ := h
  refine ⟨taken, ?_, hposition⟩
  rw [Stream.feed, hbytes, ByteArray.append_assoc]

/-- **One call** hands out the first bytes and leaves the others. -/
theorem Holds.read {want : Nat} (h : s.Holds (a ++ c)) (ha : a.size = s.grant want) :
    s.read want = (a, { s with position := s.position + a.size, calls := s.calls + 1 }) ∧
      (s.read want).2.Holds c := by
  obtain ⟨taken, hbytes, hposition⟩ := h
  have hget : s.bytes.extract s.position (s.position + a.size) = a := by
    calc s.bytes.extract s.position (s.position + a.size)
        = (taken ++ (a ++ c)).extract (taken.size + 0) (taken.size + a.size) := by
          rw [hbytes, hposition, Nat.add_zero]
      _ = (a ++ c).extract 0 a.size := ByteArray.extract_append_size_add
      _ = a := ByteArray.extract_append_eq_left rfl
  constructor
  · simp only [Stream.read, ← ha, hget]
  · refine ⟨taken ++ a, ?_, ?_⟩
    · simp only [Stream.read]
      rw [hbytes, ByteArray.append_assoc]
    · simp only [Stream.read, ← ha]
      rw [hposition, ByteArray.size_append]

/-- Bytes can be cut after the first `n`. -/
theorem exists_append_eq {n : Nat} (hn : n ≤ a.size) : ∃ b c, a = b ++ c ∧ b.size = n := by
  refine ⟨a.extract 0 n, a.extract n a.size, ?_, ?_⟩
  · rw [← ByteArray.extract_eq_extract_append_extract n (Nat.zero_le n) hn,
      ByteArray.extract_zero_size]
  · rw [ByteArray.size_extract, Nat.min_eq_left hn, Nat.sub_zero]

/-- Nothing is called for when nothing is wanted. -/
theorem Holds.readOnto_of_size_eq_zero {fuel : Nat} {acc : ByteArray} (ha : a.size = 0)
    (h : s.Holds (a ++ c)) :
    readOnto acc fuel a.size s = (.ok (acc ++ a), s) ∧ s.Holds c := by
  have hempty : a = .empty := ByteArray.size_eq_zero_iff.1 ha
  subst hempty
  rw [ByteArray.empty_append] at h
  rw [ByteArray.append_empty]
  refine ⟨?_, h⟩
  cases fuel <;> rfl

/-- **Enough calls for any chunking.**  Every call brings at least one of the bytes, and never one
behind them. -/
theorem Holds.readOnto {fuel : Nat} (acc : ByteArray) (hfuel : a.size ≤ fuel)
    (h : s.Holds (a ++ c)) :
    ∃ s', readOnto acc fuel a.size s = (.ok (acc ++ a), s') ∧ s'.Holds c ∧
      s'.capacity = s.capacity := by
  induction fuel generalizing s acc a with
  | zero =>
    obtain ⟨hread, hrest⟩ := h.readOnto_of_size_eq_zero (Nat.le_zero.1 hfuel)
    exact ⟨s, hread, hrest, rfl⟩
  | succ fuel ih =>
    rcases Nat.eq_zero_or_pos a.size with hzero | hpos
    · obtain ⟨hread, hrest⟩ := h.readOnto_of_size_eq_zero hzero
      exact ⟨s, hread, hrest, rfl⟩
    · obtain ⟨want, hwant⟩ : ∃ want, a.size = want + 1 := ⟨a.size - 1, by omega⟩
      have havailable : s.available = a.size + c.size := by
        rw [h.available, ByteArray.size_append]
      have hgrant_le := s.grant_le (want + 1)
      have hgrant_pos := s.grant_pos (want + 1) (Nat.succ_pos _) (by omega)
      -- the call takes a first piece off `a`, and the rest of `a` is read by the other calls
      obtain ⟨first, rest, rfl, hfirst⟩ := exists_append_eq (a := a) (n := s.grant (want + 1))
        (by omega)
      rw [ByteArray.size_append] at hwant hfuel
      rw [ByteArray.append_assoc] at h
      obtain ⟨hread, hnext⟩ := h.read hfirst
      rw [hread] at hnext
      obtain ⟨s', hs', hrest, hcapacity⟩ := ih (acc ++ first) (by omega) hnext
      refine ⟨s', ?_, hrest, hcapacity⟩
      have hsize : want + 1 - first.size = rest.size := by omega
      rw [ByteArray.size_append, hwant, Stream.readOnto, hread]
      simp only [hsize]
      rw [if_neg (by omega), hs', ByteArray.append_assoc]

/-- **Reading exactly as many bytes** gives the first bytes of the stream, for every chunking. -/
theorem Holds.readExact (h : s.Holds (a ++ c)) :
    ∃ s', s.readExact a.size = (.ok a, s') ∧ s'.Holds c ∧ s'.capacity = s.capacity := by
  obtain ⟨s', hs', hrest⟩ := h.readOnto .empty (Nat.le_refl a.size)
  rw [ByteArray.empty_append] at hs'
  exact ⟨s', hs', hrest⟩

/-- **Not enough bytes for any chunking.**  Every call brings at least one of the bytes, until one
finds the end. -/
theorem Holds.readOnto_of_lt {fuel want : Nat} (acc : ByteArray) (hfuel : want ≤ fuel)
    (h : s.Holds b) (hlt : b.size < want) :
    ∃ s', Stream.readOnto acc fuel want s = (.error .ended, s') ∧ s'.Holds .empty := by
  induction fuel generalizing s acc b want with
  | zero => omega
  | succ fuel ih =>
    obtain ⟨want, rfl⟩ : ∃ n, want = n + 1 := ⟨want - 1, by omega⟩
    have havailable := h.available
    have hgrant_le := s.grant_le (want + 1)
    obtain ⟨first, rest, rfl, hfirst⟩ := exists_append_eq (a := b) (n := s.grant (want + 1))
      (by omega)
    obtain ⟨hread, hnext⟩ := h.read hfirst
    rw [hread] at hnext
    rw [ByteArray.size_append] at hlt havailable
    rcases Nat.eq_zero_or_pos (first ++ rest).size with hzero | hpos
    · -- the stream is at its end
      rw [ByteArray.size_append] at hzero
      have hrest : rest = .empty := ByteArray.size_eq_zero_iff.1 (by omega)
      rw [hrest] at hnext
      refine ⟨_, ?_, hnext⟩
      rw [Stream.readOnto, hread]
      simp only [if_pos (show first.size = 0 by omega)]
    · rw [ByteArray.size_append] at hpos
      have hgrant_pos := s.grant_pos (want + 1) (Nat.succ_pos _) (by omega)
      obtain ⟨s', hs', hempty⟩ := ih (acc ++ first) (by omega) hnext
        (show rest.size < want + 1 - first.size by omega)
      refine ⟨s', ?_, hempty⟩
      rw [Stream.readOnto, hread]
      simp only [if_neg (show ¬ first.size = 0 by omega)]
      exact hs'

/-- **Reading more bytes than there are** takes all of them off the stream, for every chunking. -/
theorem Holds.readExact_of_lt {n : Nat} (h : s.Holds b) (hlt : b.size < n) :
    ∃ s', s.readExact n = (.error .ended, s') ∧ s'.Holds .empty :=
  h.readOnto_of_lt .empty (Nat.le_refl n) hlt

end Stream
end WireGrammar
