import Mathlib.Data.List.Infix
import WireGrammar.Frame
import WireGrammar.Proofs.Routine.Framed
import WireGrammar.Proofs.RoundTrip.Codec
import WireGrammar.Proofs.Stream.Reading

/-!
# Messages over a stream

Messages that are framed by their size can be sent one after the other over a stream and come back
in the same order, however sending and receiving take turns and however the stream hands out its
bytes.

* `Frame.send_encode`, `Frame.receive_encode` — one message: sending appends its bytes, receiving
  takes exactly these bytes off and gives the normal form of its value.
* `Exchange` — a stream between a sender and a receiver; `Exchange.step` is one event and
  `Exchange.run` a whole schedule of them.
* `Exchange.Carries` — the invariant: the stream holds the messages that have been sent and not
  received, and nothing else.
* `Exchange.run_of_fifo` — every schedule in which no message is received before it is sent runs
  through.
-/

set_option autoImplicit false
namespace WireGrammar

/-! ## One message -/

namespace Frame

variable {c : Codec} {typeName : String} {v : Value} {b : ByteArray}

/-- **Sending** appends the bytes of the value. -/
theorem send_encode (hc : c.overflow = .reject) (hv : c.encode typeName v = .ok b) {s : Stream}
    (hs : s.capacity = none) :
    send { codec := c, typeName := typeName, value := v } s = (.ok (), s.feed b) := by
  have hfinish := Codec.finish_encodeInto hv
  rw [hc] at hfinish
  simp only [send, Message.encodeInto, hfinish, Stream.write, hs]

variable {verifyCrc : Bool} {text : String} {compiled : Compiled}

/-- A number that 31 bits can say, written as a size and read as a signed length. -/
theorem length_of_header {n : Nat} (hn : n ≤ Writer.maxCount) :
    IntKind.int32.toInt (BigEndian.decode .int32 (BigEndian.encode .uint32 (BitVec.ofNat 32 n))) =
      n := by
  have hdecode : BigEndian.decode .int32 (BigEndian.encode .uint32 (BitVec.ofNat 32 n)) =
      BitVec.ofNat 32 n := BigEndian.decode_encode .int32 (BitVec.ofNat 32 n)
  rw [hdecode]
  exact Reader.toInt_ofNat_of_le hn

/-- **Receiving** takes the bytes of the value off the stream, for every chunking, and leaves the
message with the normal form of the value. -/
theorem receive_encode (hcompile : compile verifyCrc text = .ok compiled)
    (hs : compiled.schema.Grounded) (hlink : Codec.link compiled.program .reject = .ok c)
    (hframed : compiled.schema.FramedBy .size typeName) (hv : c.encode typeName v = .ok b)
    {limit : Nat} (hb : b.size ≤ 4 + limit) (hmax : b.size ≤ Writer.maxCount) (u : Value)
    {s : Stream} {rest : ByteArray} (hstream : s.Holds (b ++ rest)) :
    ∃ s', receive limit { codec := c, typeName := typeName, value := u } s =
        (.ok (), { codec := c, typeName := typeName, value := c.norm typeName v }, s') ∧
      s'.Holds rest ∧ s'.capacity = s.capacity := by
  have hemit := Codec.emit_eq_of_link hcompile hlink
  obtain ⟨body, rfl⟩ := (hframed.program hemit).layout_eq (Codec.encode_eq_ok.1 hv)
  have h4 : (BigEndian.encode .uint32 (Framing.size.measure body)).size = 4 :=
    BigEndian.size_encode _ _
  rw [ByteArray.append_assoc] at hstream
  obtain ⟨s₁, hheader, hs₁, hcap₁⟩ := hstream.readExact
  obtain ⟨s₂, hpayload, hs₂, hcap₂⟩ := hs₁.readExact
  rw [h4] at hheader
  have hsize : 4 + body.size ≤ min (4 + limit) Writer.maxCount := by
    rw [ByteArray.size_append, h4] at hb hmax
    exact Nat.le_min.2 ⟨hb, hmax⟩
  have hlength : IntKind.int32.toInt (BigEndian.decode .int32
      (BigEndian.encode .uint32 (Framing.size.measure body))) = body.size :=
    length_of_header (by omega)
  have hnonneg : ¬ (body.size : Int) < 0 := by omega
  have hlimit : ¬ limit < body.size := by omega
  -- the header is read again, as the slot of the message itself
  have hdecode := Codec.decodeFrom_of_faces hcompile hs hlink hv hmax (Codec.faces_whole _)
  refine ⟨s₂, ?_, hs₂, hcap₂.trans hcap₁⟩
  simp only [receive, hheader, hlength, if_neg hnonneg, Int.toNat_natCast, if_neg hlimit, hpayload,
    accept, Message.decodeFrom, hdecode, Codec.complete_whole]
  rfl

end Frame

/-! ## Schedules -/

/-- What happens on the stream: the next message is sent, or the next one is received. -/
inductive Event where
  | send
  | receive
deriving DecidableEq

/-- No message is received before it is sent: at any time at most as many have been received as
have been sent. -/
def Fifo (events : List Event) : Prop :=
  ∀ earlier, earlier <+: events → earlier.count .receive ≤ earlier.count .send

/-- The same of the rest of a schedule, when `n` messages are on their way. -/
def FifoFrom (n : Nat) (events : List Event) : Prop :=
  ∀ earlier, earlier <+: events → earlier.count .receive ≤ n + earlier.count .send

theorem Fifo.fifoFrom {events : List Event} (h : Fifo events) : FifoFrom 0 events := by
  intro earlier hearlier
  rw [Nat.zero_add]
  exact h earlier hearlier

theorem FifoFrom.of_send {n : Nat} {events : List Event} (h : FifoFrom n (.send :: events)) :
    FifoFrom (n + 1) events := by
  intro earlier hearlier
  have hle := h (.send :: earlier) (List.cons_prefix_cons.2 ⟨rfl, hearlier⟩)
  rw [List.count_cons_of_ne (by decide), List.count_cons_self] at hle
  omega

/-- What is received is on its way. -/
theorem FifoFrom.of_receive {n : Nat} {events : List Event}
    (h : FifoFrom n (.receive :: events)) : 0 < n ∧ FifoFrom (n - 1) events := by
  have hpos : 1 ≤ n := h [.receive] (List.cons_prefix_cons.2 ⟨rfl, List.nil_prefix⟩)
  refine ⟨hpos, fun earlier hearlier => ?_⟩
  have hle := h (.receive :: earlier) (List.cons_prefix_cons.2 ⟨rfl, hearlier⟩)
  rw [List.count_cons_self, List.count_cons_of_ne (by decide)] at hle
  omega

/-- A stream between a sender and a receiver, and where the two are. -/
structure Exchange where
  stream : Stream
  /-- The types and the values of the messages that have not been sent. -/
  outgoing : List (String × Value)
  /-- The types of the messages that have not been received. -/
  expected : List String
  /-- The values that have been received, in this order. -/
  received : List Value := []

namespace Exchange

/-- One event.  A message is made of the next value and sent; or an empty message of the next type
is filled by receiving.  There is no result if one of these calls fails, or if nothing is left to
send or to receive. -/
def step (c : Codec) (x : Exchange) : Event → Option Exchange
  | .send =>
    match x.outgoing with
    | [] => none
    | (typeName, v) :: outgoing =>
      match c.message typeName v with
      | .error _ => none
      | .ok m =>
        match Frame.send m x.stream with
        | (.error _, _) => none
        | (.ok (), stream) => some { x with stream := stream, outgoing := outgoing }
  | .receive =>
    match x.expected with
    | [] => none
    | typeName :: expected =>
      match c.emptyMessage typeName with
      | .error _ => none
      | .ok m =>
        match Frame.receive Frame.defaultLimit m x.stream with
        | (.error _, _, _) => none
        | (.ok (), m, stream) =>
          some { x with
            stream := stream
            expected := expected
            received := x.received ++ [m.value] }

/-- The events of a schedule one after the other; there is no result if one of them fails. -/
def run (c : Codec) (x : Exchange) (events : List Event) : Option Exchange :=
  events.foldlM (step c) x

/-- A new stream, which hands out its bytes as `chunk` says, before the first of the messages is
sent. -/
def start (chunk : Nat → Option Nat) (messages : List (String × Value)) : Exchange where
  stream := { chunk := chunk }
  outgoing := messages
  expected := messages.map (·.1)

end Exchange

/-- A message of the value can be sent and received: it is framed by its size, it encodes, and what
follows its size is not larger than the receiver allows. -/
structure Codec.Sendable (c : Codec) (s : Schema) (typeName : String) (v : Value) : Prop where
  framed : s.FramedBy .size typeName
  message : ∃ m, c.message typeName v = .ok m
  small : ∀ b, c.encode typeName v = .ok b → b.size ≤ 4 + Frame.defaultLimit

theorem Codec.message_eq_ok {c : Codec} {typeName : String} {v : Value} {m : Message}
    (h : c.message typeName v = .ok m) :
    m = { codec := c, typeName := typeName, value := v } ∧ ∃ b, c.encode typeName v = .ok b := by
  rw [message] at h
  split at h
  · cases h
  · next b hb =>
    cases h
    exact ⟨rfl, b, hb⟩

/-- The bytes of messages one after the other. -/
inductive Codec.EncodesAll (c : Codec) : List (String × Value) → ByteArray → Prop
  | nil : EncodesAll c [] .empty
  | cons {typeName : String} {v : Value} {b bs : ByteArray} {messages : List (String × Value)}
      (hb : c.encode typeName v = .ok b) (h : EncodesAll c messages bs) :
      EncodesAll c ((typeName, v) :: messages) (b ++ bs)

theorem Codec.EncodesAll.append {c : Codec} {messages : List (String × Value)} {bs : ByteArray}
    (h : c.EncodesAll messages bs) {typeName : String} {v : Value} {b : ByteArray}
    (hb : c.encode typeName v = .ok b) :
    c.EncodesAll (messages ++ [(typeName, v)]) (bs ++ b) := by
  induction h with
  | nil =>
    have hone := EncodesAll.cons hb .nil
    rwa [ByteArray.append_empty, ← ByteArray.empty_append (b := b)] at hone
  | cons hb' _ ih =>
    rw [ByteArray.append_assoc]
    exact .cons hb' ih

namespace Exchange

/-- **The invariant of an exchange.**  The messages `done` have been received, the messages `flying`
have been sent and not received, and the stream holds the bytes of these and nothing else. -/
structure Carries (c : Codec) (done flying : List (String × Value)) (x : Exchange) : Prop where
  expected_eq : x.expected = (flying ++ x.outgoing).map (·.1)
  received_eq : x.received = done.map fun m => c.norm m.1 m.2
  exists_holds : ∃ b, c.EncodesAll flying b ∧ x.stream.Holds b
  capacity_eq : x.stream.capacity = none

theorem carries_start (c : Codec) (chunk : Nat → Option Nat) (messages : List (String × Value)) :
    Carries c [] [] (start chunk messages) where
  expected_eq := rfl
  received_eq := rfl
  exists_holds := ⟨.empty, .nil, .empty, ByteArray.append_empty.symm, rfl⟩
  capacity_eq := rfl

section

variable {verifyCrc : Bool} {text : String} {compiled : Compiled} {c : Codec}
  {done flying outgoing : List (String × Value)} {typeName : String} {v : Value} {x : Exchange}

/-- **Sending** puts the next message behind those on the stream. -/
theorem Carries.step_send (hc : c.overflow = .reject) (hv : c.Sendable compiled.schema typeName v)
    (hx : Carries c done flying x) (hout : x.outgoing = (typeName, v) :: outgoing) :
    ∃ x', step c x .send = some x' ∧ x'.outgoing = outgoing ∧
      Carries c done (flying ++ [(typeName, v)]) x' := by
  obtain ⟨hexpected, hreceived, ⟨bs, hbs, hholds⟩, hcapacity⟩ := hx
  obtain ⟨m, hm⟩ := hv.message
  obtain ⟨rfl, b, hb⟩ := Codec.message_eq_ok hm
  have hsend := Frame.send_encode hc hb hcapacity
  refine ⟨{ x with stream := x.stream.feed b, outgoing := outgoing }, ?_, rfl, ?_⟩
  · simp only [step, hout, hm, hsend]
  · refine ⟨?_, hreceived, ⟨bs ++ b, hbs.append hb, hholds.feed b⟩, hcapacity⟩
    rw [hexpected, hout, List.append_assoc, List.singleton_append]

/-- **Receiving** takes the first message off the stream. -/
theorem Carries.step_receive (hcompile : compile verifyCrc text = .ok compiled)
    (hs : compiled.schema.Grounded) (hlink : Codec.link compiled.program .reject = .ok c)
    (hv : c.Sendable compiled.schema typeName v) (hx : Carries c done ((typeName, v) :: flying) x) :
    ∃ x', step c x .receive = some x' ∧ x'.outgoing = x.outgoing ∧
      Carries c (done ++ [(typeName, v)]) flying x' := by
  obtain ⟨hexpected, hreceived, ⟨_, hbs, hholds⟩, hcapacity⟩ := hx
  cases hbs with
  | @cons _ _ b bs _ hb hbs =>
    have hsmall := hv.small b hb
    have hmax : b.size ≤ Writer.maxCount := by
      rw [Frame.defaultLimit] at hsmall
      rw [Writer.maxCount]
      omega
    obtain ⟨zero, hzero⟩ := Codec.exists_zero (Codec.emit_eq_of_link hcompile hlink) hs
      (Codec.isSome_routine?_of_encode hb)
    obtain ⟨stream, hreceive, hrest, hcapacity'⟩ :=
      Frame.receive_encode hcompile hs hlink hv.framed hb hsmall hmax zero hholds
    refine ⟨{ x with
      stream := stream
      expected := (flying ++ x.outgoing).map (·.1)
      received := x.received ++ [c.norm typeName v] }, ?_, rfl, ?_⟩
    · simp only [step, hexpected, List.cons_append, List.map_cons, Codec.emptyMessage, hzero,
        hreceive]
    · refine ⟨rfl, ?_, ⟨bs, hbs, hrest⟩, hcapacity'.trans hcapacity⟩
      simp only [hreceived, List.map_append, List.map_cons, List.map_nil]

/-- **A schedule runs through** if there are enough messages to send and none is received too
early. -/
theorem Carries.run (hcompile : compile verifyCrc text = .ok compiled)
    (hs : compiled.schema.Grounded) (hlink : Codec.link compiled.program .reject = .ok c)
    {events : List Event} (hsends : events.count .send ≤ x.outgoing.length)
    (hfifo : FifoFrom flying.length events)
    (hall : ∀ m ∈ flying ++ x.outgoing, c.Sendable compiled.schema m.1 m.2)
    (hx : Carries c done flying x) :
    ∃ x' done' flying', Exchange.run c x events = some x' ∧ Carries c done' flying' x' ∧
      done' ++ (flying' ++ x'.outgoing) = done ++ (flying ++ x.outgoing) ∧
      done'.length = done.length + events.count .receive ∧
      done'.length + flying'.length = done.length + flying.length + events.count .send := by
  induction events generalizing x done flying with
  | nil => exact ⟨x, done, flying, rfl, hx, rfl, rfl, rfl⟩
  | cons e es ih =>
    cases e with
    | send =>
      rw [List.count_cons_self] at hsends
      obtain ⟨⟨typeName, v⟩, outgoing, hout⟩ := List.exists_cons_of_length_pos
        (Nat.lt_of_lt_of_le (Nat.succ_pos _) hsends)
      have hv := hall (typeName, v) (by simp [hout])
      obtain ⟨x₁, hstep, hout₁, hx₁⟩ := hx.step_send (Codec.link_eq_ok hlink).2 hv hout
      have hlength : (flying ++ [(typeName, v)]).length = flying.length + 1 := by simp
      obtain ⟨x', done', flying', hrun, hx', hmessages, hdone, hflying⟩ := ih
        (by simpa [hout, hout₁] using hsends) (by rw [hlength]; exact hfifo.of_send)
        (fun m hm => hall m (by simpa [hout, hout₁] using hm)) hx₁
      rw [hlength] at hflying
      rw [List.count_cons_of_ne (by decide), List.count_cons_self]
      refine ⟨x', done', flying', ?_, hx', ?_, hdone, by omega⟩
      · simp only [Exchange.run, List.foldlM_cons, hstep]
        exact hrun
      · rw [hmessages, hout₁, hout, List.append_assoc, List.singleton_append]
    | receive =>
      obtain ⟨hpos, hlater⟩ := hfifo.of_receive
      obtain ⟨⟨typeName, v⟩, flying, rfl⟩ := List.exists_cons_of_length_pos hpos
      have hv := hall (typeName, v) (by simp)
      obtain ⟨x₁, hstep, hout₁, hx₁⟩ := hx.step_receive hcompile hs hlink hv
      rw [List.count_cons_of_ne (by decide), ← hout₁] at hsends
      obtain ⟨x', done', flying', hrun, hx', hmessages, hdone, hflying⟩ := ih hsends hlater
        (fun m hm => hall m (List.mem_cons_of_mem _ (by rwa [hout₁] at hm))) hx₁
      rw [List.length_append, List.length_singleton] at hdone hflying
      rw [List.count_cons_self, List.count_cons_of_ne (by decide), List.length_cons]
      refine ⟨x', done', flying', ?_, hx', ?_, by omega, by omega⟩
      · simp only [Exchange.run, List.foldlM_cons, hstep]
        exact hrun
      · rw [hmessages, hout₁, List.append_assoc, List.singleton_append, List.cons_append]

/-- **Messages come back in order over any stream.**  For every codec of a compiled grammar without
a reference cycle that avoids every array, all messages framed by their size that the receiver
allows, every schedule in which the `i`-th message is received after it is sent, and every chunking:
all calls succeed, the values received are the normal forms of the values sent, and once as many
messages have been received as sent the stream is empty. -/
theorem run_of_fifo (hcompile : compile verifyCrc text = .ok compiled)
    (hs : compiled.schema.Grounded) (hlink : Codec.link compiled.program .reject = .ok c)
    {messages : List (String × Value)}
    (hmessages : ∀ m ∈ messages, c.Sendable compiled.schema m.1 m.2) {events : List Event}
    (hsends : events.count .send ≤ messages.length) (hfifo : Fifo events)
    (chunk : Nat → Option Nat) :
    ∃ x, Exchange.run c (start chunk messages) events = some x ∧
      x.received = (messages.take (events.count .receive)).map (fun m => c.norm m.1 m.2) ∧
      (events.count .receive = events.count .send → x.stream.pending = .empty) := by
  have hstart := carries_start c chunk messages
  have hnone_yet : FifoFrom ([] : List (String × Value)).length events := hfifo.fifoFrom
  obtain ⟨x, done, flying, hrun, hx, hsplit, hdone, hflying⟩ := hstart.run hcompile hs hlink hsends
    hnone_yet (by simpa [start] using hmessages)
  have hlength : done.length = events.count .receive := by simpa using hdone
  have htake : messages.take (events.count .receive) = done := by
    rw [show messages = done ++ (flying ++ x.outgoing) from hsplit.symm, ← hlength, List.take_left]
  refine ⟨x, hrun, by rw [htake, hx.received_eq], fun hcount => ?_⟩
  have hnone : flying = [] := by
    rw [List.length_nil, hlength, hcount] at hflying
    exact List.eq_nil_of_length_eq_zero (by omega)
  obtain ⟨b, hb, hholds⟩ := hx.exists_holds
  rw [hnone] at hb
  cases hb
  exact hholds.pending

end

end Exchange

namespace Tree

theorem sendable_value : codec.Sendable schema "Top" value where
  framed := .renames rfl rfl (.struct rfl rfl rfl)
  message := ⟨_, by rw [Codec.message, encode_value]⟩
  small b hb := by
    cases encode_value.symm.trans hb
    decide

end Tree

/-- Two trees over a stream that hands out one byte at a time; the second is sent before the first
is received. -/
theorem Exchange.run_of_fifo_tree :
    ∃ x, Exchange.run Tree.codec
        (start (fun _ => some 1) [("Top", Tree.value), ("Top", Tree.value)])
        [.send, .send, .receive, .receive] = some x ∧
      x.received = [Tree.codec.norm "Top" Tree.value, Tree.codec.norm "Top" Tree.value] ∧
      x.stream.pending = .empty := by
  have hfifo : Fifo [.send, .send, .receive, .receive] := by
    intro earlier h
    have hall : ∀ l ∈ [.send, .send, .receive, .receive].inits,
      List.count Event.receive l ≤ List.count .send l := by decide
    exact hall earlier ((List.mem_inits _ _).2 h)
  have hmessages : ∀ m ∈ [("Top", Tree.value), ("Top", Tree.value)],
      Tree.codec.Sendable Tree.schema m.1 m.2 := by
    intro m hm
    have heq : m = ("Top", Tree.value) := by simpa using hm
    rw [heq]
    exact Tree.sendable_value
  obtain ⟨x, hrun, hreceived, hempty⟩ := run_of_fifo Tree.compile_text Tree.grounded
    Tree.link_program hmessages (by decide) hfifo (fun _ => some 1)
  exact ⟨x, hrun, hreceived, hempty rfl⟩

end WireGrammar
