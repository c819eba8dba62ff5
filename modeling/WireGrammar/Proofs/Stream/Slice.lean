import WireGrammar.Frame
import WireGrammar.Proofs.Decode.Acceptance
import WireGrammar.Proofs.Stream.Reading

/-!
# Receiving is decoding a slice

What receiving a message comes to can be told from the bytes on the stream alone, however the stream
hands them out: the first four bytes declare a length, and the message is decoded from them and as
many bytes as they declare, just as it would be from a byte sequence of its own.

* `Frame.Receipt` — what should come of a message that is received off given bytes.
* `Frame.receive_of_lt`, `Frame.receive_of_neg`, `Frame.receive_of_limit_lt`,
  `Frame.receive_of_payload_lt`, `Frame.receive_append` — how far receiving gets.
* `Frame.receipt_of_lt` to `Frame.receipt_append` — what should come of it in each of these cases.
* `Frame.exists_accept_eq` — a whole frame is decoded like any other byte sequence.
* `Frame.receipt_of_receive` — receiving into an empty message comes to what it should.
-/

set_option autoImplicit false
namespace WireGrammar
namespace Frame

/-- The length that a header declares. -/
def declared (header : ByteArray) : Int :=
  IntKind.int32.toInt (BigEndian.decode .int32 header)

/-- **What should come of an empty message** of the type `typeName` that is received off a stream
with the given content: the result, the value that the message holds afterwards, and the bytes that
are left on the stream.  As long as no frame is complete, the message keeps its zero value. -/
def Receipt (c : Codec) (typeName : String) (zero : Value) (limit : Nat) (content : ByteArray)
    (result : Except FrameError Unit) (value : Value) (rest : ByteArray) : Prop :=
  let length := declared (content.extract 0 4)
  if content.size < 4 then
    result = .error (.stream .ended) ∧ value = zero ∧ rest = .empty
  else if length < 0 then
    result = .error (.negativeLength length) ∧ value = zero ∧
      rest = content.extract 4 content.size
  else if limit < length then
    result = .error (.tooLarge length.toNat limit) ∧ value = zero ∧
      rest = content.extract 4 content.size
  else if content.size < 4 + length then
    result = .error (.stream .ended) ∧ value = zero ∧ rest = .empty
  else
    rest = content.extract (4 + length.toNat) content.size ∧
      match c.decode typeName (content.extract 0 (4 + length.toNat)) with
      | .ok v => result = .ok () ∧ value = v
      | .error (.decode e) => result = .error (.decode e)
      | .error _ => False

/-! ## How far receiving gets -/

variable {limit : Nat} {m : Message} {s : Stream} {content header payload rest : ByteArray}

theorem receive_of_lt (h : s.Holds content) (hlt : content.size < 4) :
    ∃ s', receive limit m s = (.error (.stream .ended), m, s') ∧ s'.Holds .empty := by
  obtain ⟨s', hread, hempty⟩ := h.readExact_of_lt hlt
  exact ⟨s', by simp only [receive, hread], hempty⟩

section Header

variable (hheader : header.size = 4)
include hheader

theorem receive_of_neg (h : s.Holds (header ++ rest)) (hneg : declared header < 0) :
    ∃ s', receive limit m s = (.error (.negativeLength (declared header)), m, s') ∧
      s'.Holds rest := by
  obtain ⟨s', hread, hrest, -⟩ := h.readExact
  rw [hheader] at hread
  rw [declared] at hneg ⊢
  exact ⟨s', by simp only [receive, hread, if_pos hneg], hrest⟩

variable {n : Nat} (hn : declared header = n)
include hn

theorem receive_of_limit_lt (h : s.Holds (header ++ rest)) (hlimit : limit < n) :
    ∃ s', receive limit m s = (.error (.tooLarge n limit), m, s') ∧ s'.Holds rest := by
  obtain ⟨s', hread, hrest, -⟩ := h.readExact
  rw [hheader] at hread
  rw [declared] at hn
  have hneg : ¬ (n : Int) < 0 := by omega
  refine ⟨s', ?_, hrest⟩
  simp only [receive, hread, hn, if_neg hneg, Int.toNat_natCast, if_pos hlimit]

theorem receive_of_payload_lt (h : s.Holds (header ++ rest)) (hlimit : ¬ limit < n)
    (hlt : rest.size < n) :
    ∃ s', receive limit m s = (.error (.stream .ended), m, s') ∧ s'.Holds .empty := by
  obtain ⟨s₁, hread, hrest, -⟩ := h.readExact
  obtain ⟨s₂, hpayload, hempty⟩ := hrest.readExact_of_lt hlt
  rw [hheader] at hread
  rw [declared] at hn
  have hneg : ¬ (n : Int) < 0 := by omega
  refine ⟨s₂, ?_, hempty⟩
  simp only [receive, hread, hn, if_neg hneg, Int.toNat_natCast, if_neg hlimit, hpayload]

/-- A whole frame is taken off the stream and decoded. -/
theorem receive_append (h : s.Holds (header ++ (payload ++ rest))) (hlimit : ¬ limit < n)
    (hpayload : payload.size = n) :
    ∃ s', receive limit m s = ((accept m header payload).1, (accept m header payload).2, s') ∧
      s'.Holds rest := by
  obtain ⟨s₁, hread, hrest, -⟩ := h.readExact
  obtain ⟨s₂, hread', hrest', -⟩ := hrest.readExact
  rw [hheader] at hread
  rw [hpayload] at hread'
  rw [declared] at hn
  have hneg : ¬ (n : Int) < 0 := by omega
  refine ⟨s₂, ?_, hrest'⟩
  simp only [receive, hread, hn, if_neg hneg, Int.toNat_natCast, if_neg hlimit, hread']

end Header

/-! ## What should come of it -/

section Receipt

variable {c : Codec} {typeName : String} {zero : Value}

theorem receipt_of_lt (hlt : content.size < 4) :
    Receipt c typeName zero limit content (.error (.stream .ended)) zero .empty := by
  simp only [Receipt, if_pos hlt, and_self]

variable (hheader : header.size = 4)
include hheader

theorem extract_header (rest : ByteArray) : (header ++ rest).extract 0 4 = header :=
  ByteArray.extract_append_eq_left hheader.symm

theorem extract_rest (rest : ByteArray) :
    (header ++ rest).extract 4 (header ++ rest).size = rest :=
  ByteArray.extract_append_eq_right hheader.symm ByteArray.size_append

theorem size_not_lt (rest : ByteArray) : ¬ (header ++ rest).size < 4 := by
  rw [ByteArray.size_append]
  omega

theorem receipt_of_neg (hneg : declared header < 0) :
    Receipt c typeName zero limit (header ++ rest) (.error (.negativeLength (declared header)))
      zero rest := by
  simp only [Receipt, extract_header hheader, extract_rest hheader,
    if_neg (size_not_lt hheader rest), if_pos hneg, and_self]

variable {n : Nat} (hn : declared header = n)
include hn

theorem receipt_of_limit_lt (hlimit : limit < n) :
    Receipt c typeName zero limit (header ++ rest) (.error (.tooLarge n limit)) zero rest := by
  have hneg : ¬ (n : Int) < 0 := by omega
  have hlimit' : (limit : Int) < n := Int.ofNat_lt.2 hlimit
  simp only [Receipt, extract_header hheader, extract_rest hheader,
    if_neg (size_not_lt hheader rest), hn, Int.toNat_natCast, if_neg hneg, if_pos hlimit', and_self]

theorem receipt_of_payload_lt (hlimit : ¬ limit < n) (hlt : rest.size < n) :
    Receipt c typeName zero limit (header ++ rest) (.error (.stream .ended)) zero .empty := by
  have hneg : ¬ (n : Int) < 0 := by omega
  have hlimit' : ¬ (limit : Int) < n := mt Int.ofNat_lt.1 hlimit
  have hshort : ((header ++ rest).size : Int) < 4 + n := by
    rw [ByteArray.size_append]
    omega
  simp only [Receipt, extract_header hheader, if_neg (size_not_lt hheader rest), hn,
    if_neg hneg, if_neg hlimit', if_pos hshort, and_self]

/-- A whole frame comes to what its bytes are decoded as. -/
theorem receipt_append (hlimit : ¬ limit < n) (hpayload : payload.size = n)
    {outcome : Except DecodeError Unit} {v : Value}
    (hdecode : c.decode typeName (header ++ payload) =
      (outcome.mapError .decode).map fun _ => v) :
    Receipt c typeName zero limit (header ++ (payload ++ rest)) (outcome.mapError .decode) v
      rest := by
  have hneg : ¬ (n : Int) < 0 := by omega
  have hlimit' : ¬ (limit : Int) < n := mt Int.ofNat_lt.1 hlimit
  have hsize : 4 + n = (header ++ payload).size := by
    rw [ByteArray.size_append, hheader, hpayload]
  have hwhole : ¬ ((header ++ (payload ++ rest)).size : Int) < 4 + n := by
    rw [← ByteArray.append_assoc, ByteArray.size_append]
    omega
  have hframe : (header ++ (payload ++ rest)).extract 0 (4 + n) = header ++ payload := by
    rw [← ByteArray.append_assoc]
    exact ByteArray.extract_append_eq_left hsize
  have hafter : (header ++ (payload ++ rest)).extract (4 + n) (header ++ (payload ++ rest)).size =
      rest := by
    rw [← ByteArray.append_assoc]
    exact ByteArray.extract_append_eq_right hsize ByteArray.size_append
  simp only [Receipt, extract_header hheader, if_neg (size_not_lt hheader _), hn,
    Int.toNat_natCast, if_neg hneg, if_neg hlimit', if_neg hwhole, hframe, hafter, hdecode,
    true_and]
  cases outcome with
  | error e => rfl
  | ok _ => exact ⟨rfl, rfl⟩

end Receipt

/-! ## Codecs -/

section Codec

variable {schema : Schema} {verifyCrc : Bool} {c : Codec} {typeName : String}

/-- **A frame is decoded like any other byte sequence**: the same error or none, and the same
value. -/
theorem exists_accept_eq (hp : schema.emit verifyCrc = .ok c.program) (hs : schema.Grounded)
    (ht : (c.program.routine? typeName).isSome) (u : Value) (header payload : ByteArray) :
    ∃ (outcome : Except DecodeError Unit) (v : Value),
      accept { codec := c, typeName := typeName, value := u } header payload =
        (outcome.mapError .decode, { codec := c, typeName := typeName, value := v }) ∧
      c.decode typeName (header ++ payload) = (outcome.mapError .decode).map fun _ => v := by
  obtain ⟨v, r', -, hfrom⟩ := Codec.exists_decodeFrom hp hs ht { buffer := header ++ payload }
  refine ⟨Codec.complete r', v, by simp only [accept, Message.decodeFrom, hfrom], ?_⟩
  simp only [Codec.decode, hfrom]
  cases Codec.complete r' <;> rfl

/-- **Receiving agrees with decoding a slice.**  For every type with a routine, whatever the stream
holds, however it hands out its bytes and whatever the receiver allows: receiving into an empty
message gives the result and leaves the value and the bytes that `Receipt` tells from the content
of the stream. -/
theorem receipt_of_receive (hp : schema.emit verifyCrc = .ok c.program) (hs : schema.Grounded)
    (ht : (c.program.routine? typeName).isSome) :
    ∃ zero, c.zero typeName = .ok zero ∧
      c.emptyMessage typeName = .ok { codec := c, typeName := typeName, value := zero } ∧
      ∀ (limit : Nat) (content : ByteArray) (s : Stream), s.Holds content →
        ∃ result value s' rest,
          receive limit { codec := c, typeName := typeName, value := zero } s =
            (result, { codec := c, typeName := typeName, value := value }, s') ∧
          s'.Holds rest ∧ Receipt c typeName zero limit content result value rest := by
  obtain ⟨zero, hzero⟩ := Codec.exists_zero hp hs ht
  refine ⟨zero, hzero, by simp only [Codec.emptyMessage, hzero], fun limit content s h => ?_⟩
  rcases Nat.lt_or_ge content.size 4 with hlt | hge
  · obtain ⟨s', hreceive, hrest⟩ := receive_of_lt h hlt
    exact ⟨_, _, s', _, hreceive, hrest, receipt_of_lt hlt⟩
  obtain ⟨header, tail, rfl, hheader⟩ := Stream.exists_append_eq hge
  rcases Int.lt_or_le (declared header) 0 with hneg | hnonneg
  · obtain ⟨s', hreceive, hrest⟩ := receive_of_neg hheader h hneg
    exact ⟨_, _, s', _, hreceive, hrest, receipt_of_neg hheader hneg⟩
  obtain ⟨n, hn⟩ : ∃ n : Nat, declared header = n := Int.eq_ofNat_of_zero_le hnonneg
  by_cases hlimit : limit < n
  · obtain ⟨s', hreceive, hrest⟩ := receive_of_limit_lt hheader hn h hlimit
    exact ⟨_, _, s', _, hreceive, hrest, receipt_of_limit_lt hheader hn hlimit⟩
  rcases Nat.lt_or_ge tail.size n with hlt | hle
  · obtain ⟨s', hreceive, hrest⟩ := receive_of_payload_lt hheader hn h hlimit hlt
    exact ⟨_, _, s', _, hreceive, hrest, receipt_of_payload_lt hheader hn hlimit hlt⟩
  obtain ⟨payload, rest, rfl, hpayload⟩ := Stream.exists_append_eq hle
  obtain ⟨s', hreceive, hrest⟩ := receive_append hheader hn h hlimit hpayload
  obtain ⟨outcome, v, haccept, hdecode⟩ := exists_accept_eq hp hs ht zero header payload
  rw [haccept] at hreceive
  exact ⟨_, _, s', _, hreceive, hrest, receipt_append hheader hn hlimit hpayload hdecode⟩

end Codec

/-- A tree of 13 bytes, one byte a call; what follows it stays on the stream. -/
theorem receipt_of_receive_tree :
    ∃ zero s',
      receive 100 { codec := { program := Tree.program }, typeName := "Top", value := zero }
        { bytes := Tree.cutBytes ++ ⟨#[0, 0]⟩, chunk := fun _ => some 1 } =
          (.ok (),
            { codec := { program := Tree.program }, typeName := "Top", value := Tree.cutValue },
            s') ∧
      s'.Holds ⟨#[0, 0]⟩ := by
  have hholds : ({ bytes := Tree.cutBytes ++ ⟨#[0, 0]⟩, chunk := fun _ => some 1 } : Stream).Holds
      (Tree.cutBytes ++ ⟨#[0, 0]⟩) := ⟨.empty, ByteArray.empty_append.symm, rfl⟩
  have hlength : declared ((Tree.cutBytes ++ ⟨#[0, 0]⟩).extract 0 4) = 9 := by decide
  have hframe : (Tree.cutBytes ++ ⟨#[0, 0]⟩).extract 0 (4 + 9) = Tree.cutBytes := by decide
  have hrest : (Tree.cutBytes ++ ⟨#[0, 0]⟩).extract (4 + 9) 15 = ⟨#[0, 0]⟩ := by decide
  obtain ⟨zero, -, -, hreceive⟩ := receipt_of_receive (c := { program := Tree.program })
    Tree.emit_schema Tree.grounded (show (Tree.program.routine? "Top").isSome from rfl)
  obtain ⟨result, value, s', rest, heq, hleft, hreceipt⟩ := hreceive 100 _ _ hholds
  have hsize : (Tree.cutBytes ++ ⟨#[0, 0]⟩).size = 15 := rfl
  simp only [Receipt, hlength, hsize, show Int.toNat 9 = 9 from rfl, hframe, hrest,
    Tree.decode_cutBytes] at hreceipt
  obtain ⟨rfl, rfl, rfl⟩ := hreceipt
  exact ⟨zero, s', heq, hleft⟩

end Frame
end WireGrammar
