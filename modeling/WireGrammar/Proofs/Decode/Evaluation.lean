import WireGrammar.Proofs.Decode.Progress

/-!
# What decoding means, without bounds

`Program.decode` stops when it has used up its fuel, and the loop over a size array has a bound of
its own.  Here are the rules of decoding with neither: a relation whose derivations follow the calls
of routines and the rounds of the two array loops, whatever their number.  Since a derivation is
finite, having one means that decoding ends.

* `Decodes p op r v r'` — decoding by `op` from `r` ends with the value `v` and the reader `r'`;
  `DecodesFields`, `DecodesCount` and `DecodesWithin` are the same for fields and for the elements
  of the two kinds of array.
* `Program.decodes_of_decode` — what `Program.decode` computes has a derivation.
* `Decodes.eventually` — what has a derivation is computed with any large enough fuel.
* `Decodes.unique` — so the rules give one result at most.
-/

set_option autoImplicit false
namespace WireGrammar

mutual

/-- Decoding by an operation from one reader ends with a value and another reader. -/
inductive Decodes (p : Program) : DecodeOp → Reader → Value → Reader → Prop
  | read (q : Primitive) (r : Reader) :
      Decodes p (.read q) r (r.readPrimitive q).1 (r.readPrimitive q).2
  | readAlias (typeName : String) (q : Primitive) (r : Reader) :
      Decodes p (.readAlias typeName q) r (.named typeName (r.readPrimitive q).1)
        (r.readPrimitive q).2
  | call {name : String} {t : Routine} {r r' : Reader} {v : Value}
      (ht : p.routine? name = some t) (h : Decodes p t.decode r v r') :
      Decodes p (.call name) r v r'
  | noRoutine {name : String} (r : Reader) (ht : p.routine? name = none) :
      Decodes p (.call name) r (.struct []) (r.fail (.codec s!"no routine for {name}"))
  | struct {ops : List (Field DecodeOp)} {r r' : Reader} {fields : List (Field Value)}
      (h : DecodesFields p [] ops r fields r') : Decodes p (.struct ops) r (.struct fields) r'
  | framed {framing : Framing} {signed : Bool} (verify : Bool) {body : List (Field DecodeOp)}
      {r start r' : Reader} {slot : BitVec (IntKind.word signed).bits}
      {fields : List (Field Value)} (hslot : r.readInt (.word signed) = (slot, start))
      (h : DecodesFields p [⟨framing.fieldName, .int (.word signed) slot⟩] body start fields r') :
      Decodes p (.framed framing signed verify body) r (.struct fields)
        (if verify then r'.verify framing signed slot start.offset else r')
  | lengthArray {element : DecodeOp} {r start r' : Reader} {count : BitVec IntKind.int32.bits}
      {vs : List Value} (hcount : r.readInt .int32 = (count, start))
      (h : DecodesCount p element count.toInt.toNat start vs r') :
      Decodes p (.lengthArray element) r (.list vs) r'
  | noHeader {element : DecodeOp} {r start : Reader} {size : BitVec IntKind.int32.bits}
      (hsize : r.readInt .int32 = (size, start)) (herr : start.error.isSome) :
      Decodes p (.sizeArray element) r (.list []) start
  | sizeArray {element : DecodeOp} {r start r' : Reader} {size : BitVec IntKind.int32.bits}
      {vs : List Value} (hsize : r.readInt .int32 = (size, start)) (herr : start.error = none)
      (h : DecodesWithin p element (start.offset + size.toInt.toNat) start vs r') :
      Decodes p (.sizeArray element) r (.list vs) r'
  | unsupported (owner : String) (r : Reader) :
      Decodes p (.unsupported owner) r (.struct []) (r.fail (.unsupported owner))

/-- Decoding fields, onto the fields read so far. -/
inductive DecodesFields (p : Program) : List (Field Value) → List (Field DecodeOp) → Reader →
    List (Field Value) → Reader → Prop
  | nil (fields : List (Field Value)) (r : Reader) : DecodesFields p fields [] r fields r
  | cons {fields fields' : List (Field Value)} {name : String} {op : DecodeOp}
      {ops : List (Field DecodeOp)} {r r' r'' : Reader} {v : Value} (hop : Decodes p op r v r')
      (h : DecodesFields p (Fields.insert name v fields) ops r' fields' r'') :
      DecodesFields p fields (⟨name, op⟩ :: ops) r fields' r''

/-- Decoding a number of elements; one that fails is dropped and ends the list. -/
inductive DecodesCount (p : Program) : DecodeOp → Nat → Reader → List Value → Reader → Prop
  | zero (element : DecodeOp) (r : Reader) : DecodesCount p element 0 r [] r
  | failed {element : DecodeOp} (n : Nat) {r r' : Reader} {v : Value}
      (hv : Decodes p element r v r') (herr : r'.error.isSome) :
      DecodesCount p element (n + 1) r [] r'
  | next {element : DecodeOp} {n : Nat} {r r' r'' : Reader} {v : Value} {vs : List Value}
      (hv : Decodes p element r v r') (herr : r'.error = none)
      (h : DecodesCount p element n r' vs r'') : DecodesCount p element (n + 1) r (v :: vs) r''

/-- Decoding elements up to an offset.  One that fails is dropped, and unless the failure lies in
the routine it is forgotten and the rest of the array skipped; one that takes no bytes is the
last. -/
inductive DecodesWithin (p : Program) : DecodeOp → Nat → Reader → List Value → Reader → Prop
  | done (element : DecodeOp) {stop : Nat} {r : Reader} (hstop : stop ≤ r.offset) :
      DecodesWithin p element stop r [] r
  | failed {element : DecodeOp} {stop : Nat} {r r' : Reader} {v : Value} {e : DecodeError}
      (hlt : r.offset < stop) (hv : Decodes p element r v r') (herr : r'.error = some e) :
      DecodesWithin p element stop r []
        (if e.isRecoverable then (r'.setError none).skipTo stop else r')
  | idle {element : DecodeOp} {stop : Nat} {r r' : Reader} {v : Value}
      (hlt : r.offset < stop) (hv : Decodes p element r v r') (herr : r'.error = none)
      (hoff : r'.offset = r.offset) : DecodesWithin p element stop r [v] r'
  | next {element : DecodeOp} {stop : Nat} {r r' r'' : Reader} {v : Value} {vs : List Value}
      (hlt : r.offset < stop) (hv : Decodes p element r v r') (herr : r'.error = none)
      (hoff : r'.offset ≠ r.offset) (h : DecodesWithin p element stop r' vs r'') :
      DecodesWithin p element stop r (v :: vs) r''

end

open DecodeM

variable {p : Program}

/-! ## From runs to derivations -/

theorem decodesCount_of_collect {element : DecodeOp} {item : DecodeM Value}
    (hitem : ∀ r v r', item.run r = some (v, r') → Decodes p element r v r') :
    ∀ {n : Nat} {acc xs : List Value} {r r'' : Reader},
      (collect item n acc).run r = some (xs, r'') →
      ∃ vs, xs = acc.reverse ++ vs ∧ DecodesCount p element n r vs r''
  | 0, acc, xs, r, r'', h => by
    cases h
    exact ⟨[], (List.append_nil _).symm, .zero element r⟩
  | n + 1, acc, xs, r, r'', h => by
    rw [collect] at h
    obtain ⟨v, r', hv, h⟩ := run_bind_eq_some.1 h
    obtain ⟨_, _, hget, h⟩ := run_bind_eq_some.1 h
    cases hget
    by_cases herr : r'.error.isSome
    · rw [if_pos herr] at h
      cases h
      exact ⟨[], (List.append_nil _).symm, .failed n (hitem r v _ hv) herr⟩
    · rw [if_neg herr] at h
      obtain ⟨vs, rfl, hvs⟩ := decodesCount_of_collect hitem h
      have hnone := Option.not_isSome_iff_eq_none.1 herr
      exact ⟨v :: vs, by simp, .next (hitem r v r' hv) hnone hvs⟩

/-- The bound of the loop over a size array never cuts it short: every round but the last takes at
least one byte. -/
theorem decodesWithin_of_collectWithin {element : DecodeOp} {item : DecodeM Value}
    (hitem : ∀ r v r', item.run r = some (v, r') → Decodes p element r v r')
    (hadv : Advancing item) {stop : Nat} :
    ∀ {fuel : Nat} {acc xs : List Value} {r r'' : Reader}, stop ≤ r.offset + fuel →
      (collectWithin item stop fuel acc).run r = some (xs, r'') →
      ∃ vs, xs = acc.reverse ++ vs ∧ DecodesWithin p element stop r vs r''
  | 0, acc, xs, r, r'', hstop, h => by
    cases h
    exact ⟨[], (List.append_nil _).symm, .done element hstop⟩
  | fuel + 1, acc, xs, r, r'', hstop, h => by
    rcases collectWithin_succ_cases h with ⟨hle, rfl, rfl⟩ | ⟨hlt, v, r', hv, h⟩
    · exact ⟨[], (List.append_nil _).symm, .done element hle⟩
    · have hv' := hitem r v r' hv
      rcases h with ⟨e, herr, rfl, rfl⟩ | ⟨herr, hoff, rfl, rfl⟩ | ⟨herr, hoff, h⟩
      · exact ⟨[], (List.append_nil _).symm, .failed hlt hv' herr⟩
      · exact ⟨[v], by simp, .idle hlt hv' herr hoff⟩
      · have hle := (hadv r v r' hv).offset_le
        obtain ⟨vs, rfl, hvs⟩ := decodesWithin_of_collectWithin hitem hadv (by omega) h
        exact ⟨v :: vs, by simp, .next hlt hv' herr hoff hvs⟩

section Operations

variable {call : String → DecodeM Value}

mutual

theorem DecodeOp.decodes_of_run (hadv : ∀ name, Advancing (call name))
    (hcall : ∀ name r v r', (call name).run r = some (v, r') → Decodes p (.call name) r v r') :
    ∀ (op : DecodeOp) (r : Reader) (v : Value) (r' : Reader),
      (op.run call).run r = some (v, r') → Decodes p op r v r'
  | .read q, r, v, r', h => by
    rw [run, run_modifyGet, Option.some.injEq] at h
    have := Decodes.read (p := p) q r
    rwa [h] at this
  | .readAlias typeName q, r, v, r', h => by
    rw [run] at h
    obtain ⟨x, r₁, hx, h⟩ := run_bind_eq_some.1 h
    cases h
    rw [run_modifyGet, Option.some.injEq] at hx
    have := Decodes.readAlias (p := p) typeName q r
    rwa [hx] at this
  | .call name, r, v, r', h => by
    rw [run] at h
    exact hcall name r v r' h
  | .struct ops, r, v, r', h => by
    rw [run] at h
    obtain ⟨fields, _, hfields, h⟩ := run_bind_eq_some.1 h
    cases h
    exact .struct (decodesFields_of_runFields hadv hcall ops [] r fields r' hfields)
  | .framed framing signed verify body, r, v, r', h => by
    rw [run] at h
    obtain ⟨slot, start, hslot, h⟩ := run_bind_eq_some.1 h
    obtain ⟨_, _, hget, h⟩ := run_bind_eq_some.1 h
    cases hget
    obtain ⟨fields, r₁, hfields, h⟩ := run_bind_eq_some.1 h
    rw [run_modifyGet, Option.some.injEq] at hslot
    have := Decodes.framed verify hslot
      (decodesFields_of_runFields hadv hcall body _ start fields r₁ hfields)
    cases verify with
    | true =>
      cases h
      exact this
    | false =>
      cases h
      exact this
  | .lengthArray element, r, v, r', h => by
    rw [run] at h
    obtain ⟨count, start, hcount, h⟩ := run_bind_eq_some.1 h
    obtain ⟨xs, _, hxs, h⟩ := run_bind_eq_some.1 h
    cases h
    rw [run_modifyGet, Option.some.injEq] at hcount
    obtain ⟨vs, rfl, hvs⟩ := decodesCount_of_collect (decodes_of_run hadv hcall element) hxs
    exact .lengthArray hcount hvs
  | .sizeArray element, r, v, r', h => by
    obtain ⟨size, start, hsize, ⟨herr, rfl, rfl⟩ | ⟨herr, -, -, xs, rfl, hxs⟩⟩ :=
      run_sizeArray_cases h
    · exact .noHeader hsize herr
    · obtain ⟨vs, rfl, hvs⟩ := decodesWithin_of_collectWithin (decodes_of_run hadv hcall element)
        (run_advancing hadv element) (Nat.le_refl _) hxs
      exact .sizeArray hsize herr hvs
  | .unsupported owner, r, v, r', h => by
    rw [run] at h
    cases h
    exact .unsupported owner r

theorem DecodeOp.decodesFields_of_runFields (hadv : ∀ name, Advancing (call name))
    (hcall : ∀ name r v r', (call name).run r = some (v, r') → Decodes p (.call name) r v r') :
    ∀ (ops : List (Field DecodeOp)) (fields : List (Field Value)) (r : Reader)
      (fields' : List (Field Value)) (r' : Reader),
      (runFields call fields ops).run r = some (fields', r') →
      DecodesFields p fields ops r fields' r'
  | [], fields, r, fields', r', h => by
    rw [runFields] at h
    cases h
    exact .nil fields r
  | ⟨name, op⟩ :: ops, fields, r, fields', r'', h => by
    rw [runFields] at h
    obtain ⟨v, r', hv, h⟩ := run_bind_eq_some.1 h
    exact .cons (decodes_of_run hadv hcall op r v r' hv)
      (decodesFields_of_runFields hadv hcall ops _ r' fields' r'' h)

end

end Operations

/-- **What a routine computes has a derivation.** -/
theorem Program.decodes_of_decode :
    ∀ (fuel : Nat) (name : String) (r : Reader) (v : Value) (r' : Reader),
      (p.decode fuel name).run r = some (v, r') → Decodes p (.call name) r v r'
  | 0, name, r, v, r', h => by cases h
  | fuel + 1, name, r, v, r', h => by
    rw [decode] at h
    cases ht : p.routine? name with
    | none =>
      rw [ht] at h
      cases h
      exact .noRoutine r ht
    | some t =>
      rw [ht] at h
      exact .call ht (t.decode.decodes_of_run (p.decode_advancing fuel)
        (decodes_of_decode fuel) r v r' h)

/-! ## From derivations to runs -/

theorem run_collectWithin_of_le {item : DecodeM Value} {stop : Nat} {r : Reader}
    (h : stop ≤ r.offset) (acc : List Value) :
    ∀ fuel, (collectWithin item stop fuel acc).run r = some (acc.reverse, r)
  | 0 => rfl
  | fuel + 1 => by
    rw [collectWithin]
    refine run_bind_eq_some.2 ⟨r, r, rfl, ?_⟩
    rw [if_pos h]
    rfl

theorem run_collectWithin_succ {item : DecodeM Value} {stop : Nat} {r r' : Reader} {v : Value}
    (hlt : r.offset < stop) (hv : item.run r = some (v, r')) (fuel : Nat) (acc : List Value) :
    (collectWithin item stop (fuel + 1) acc).run r =
      match r'.error with
      | some e =>
        some (acc.reverse, if e.isRecoverable then (r'.setError none).skipTo stop else r')
      | none =>
        if r'.offset = r.offset then some ((v :: acc).reverse, r')
        else (collectWithin item stop fuel (v :: acc)).run r' := by
  rw [collectWithin]
  simp only [StateT.run_bind, run_get, Option.bind_eq_bind, Option.bind_some,
    if_neg (Nat.not_le_of_lt hlt), hv]
  cases r'.error with
  | none =>
    simp only
    split <;> rfl
  | some e =>
    simp only
    split <;> rfl

mutual

/-- **What has a derivation is computed with any large enough fuel.** -/
theorem Decodes.eventually {op : DecodeOp} {r r' : Reader} {v : Value} :
    Decodes p op r v r' → ∃ n, ∀ fuel, n ≤ fuel → (op.run (p.decode fuel)).run r = some (v, r')
  | .read q r => ⟨0, fun fuel _ => by rw [DecodeOp.run, run_modifyGet]⟩
  | .readAlias typeName q r => ⟨0, fun fuel _ => by
      rw [DecodeOp.run]
      exact run_bind_eq_some.2 ⟨_, _, rfl, rfl⟩⟩
  | .call ht h => by
    obtain ⟨n, hn⟩ := h.eventually
    refine ⟨n + 1, fun fuel hfuel => ?_⟩
    obtain ⟨k, rfl⟩ : ∃ k, fuel = k + 1 := ⟨fuel - 1, by omega⟩
    rw [DecodeOp.run, Program.decode, ht]
    exact hn k (by omega)
  | .noRoutine r ht => by
    refine ⟨1, fun fuel hfuel => ?_⟩
    obtain ⟨k, rfl⟩ : ∃ k, fuel = k + 1 := ⟨fuel - 1, by omega⟩
    rw [DecodeOp.run, Program.decode, ht]
    rfl
  | .struct h => by
    obtain ⟨n, hn⟩ := h.eventually
    refine ⟨n, fun fuel hfuel => ?_⟩
    rw [DecodeOp.run]
    exact run_bind_eq_some.2 ⟨_, _, hn fuel hfuel, rfl⟩
  | .framed verify hslot h => by
    obtain ⟨n, hn⟩ := h.eventually
    refine ⟨n, fun fuel hfuel => ?_⟩
    rw [DecodeOp.run]
    refine run_bind_eq_some.2 ⟨_, _, congrArg some hslot, ?_⟩
    refine run_bind_eq_some.2 ⟨_, _, rfl, ?_⟩
    refine run_bind_eq_some.2 ⟨_, _, hn fuel hfuel, ?_⟩
    cases verify <;> rfl
  | .lengthArray hcount h => by
    obtain ⟨n, hn⟩ := h.eventually
    refine ⟨n, fun fuel hfuel => ?_⟩
    rw [DecodeOp.run]
    refine run_bind_eq_some.2 ⟨_, _, congrArg some hcount, ?_⟩
    exact run_bind_eq_some.2 ⟨_, _, hn fuel hfuel [], rfl⟩
  | .noHeader hsize herr => by
    refine ⟨0, fun fuel _ => ?_⟩
    rw [DecodeOp.run]
    refine run_bind_eq_some.2 ⟨_, _, congrArg some hsize, ?_⟩
    refine run_bind_eq_some.2 ⟨_, _, rfl, ?_⟩
    rw [if_pos herr]
    rfl
  | .sizeArray hsize herr h => by
    obtain ⟨n, hn⟩ := h.eventually
    refine ⟨n, fun fuel hfuel => ?_⟩
    rw [DecodeOp.run]
    refine run_bind_eq_some.2 ⟨_, _, congrArg some hsize, ?_⟩
    refine run_bind_eq_some.2 ⟨_, _, rfl, ?_⟩
    rw [if_neg (by simp [herr])]
    exact run_bind_eq_some.2 ⟨_, _, hn fuel hfuel _ [] (Nat.le_refl _), rfl⟩
  | .unsupported owner r => ⟨0, fun fuel _ => by
      rw [DecodeOp.run]
      rfl⟩

theorem DecodesFields.eventually {fields fields' : List (Field Value)}
    {ops : List (Field DecodeOp)} {r r' : Reader} :
    DecodesFields p fields ops r fields' r' → ∃ n, ∀ fuel, n ≤ fuel →
      (DecodeOp.runFields (p.decode fuel) fields ops).run r = some (fields', r')
  | .nil fields r => ⟨0, fun fuel _ => by
      rw [DecodeOp.runFields]
      rfl⟩
  | .cons hop h => by
    obtain ⟨n, hn⟩ := hop.eventually
    obtain ⟨m, hm⟩ := h.eventually
    refine ⟨max n m, fun fuel hfuel => ?_⟩
    rw [DecodeOp.runFields]
    exact run_bind_eq_some.2 ⟨_, _, hn fuel (by omega), hm fuel (by omega)⟩

theorem DecodesCount.eventually {element : DecodeOp} {k : Nat} {r r' : Reader}
    {vs : List Value} :
    DecodesCount p element k r vs r' → ∃ n, ∀ fuel, n ≤ fuel → ∀ acc,
      (collect (element.run (p.decode fuel)) k acc).run r = some (acc.reverse ++ vs, r')
  | .zero element r => ⟨0, fun fuel _ acc => by
      rw [collect, List.append_nil]
      rfl⟩
  | .failed k hv herr => by
    obtain ⟨n, hn⟩ := hv.eventually
    refine ⟨n, fun fuel hfuel acc => ?_⟩
    rw [collect, List.append_nil]
    refine run_bind_eq_some.2 ⟨_, _, hn fuel hfuel, ?_⟩
    refine run_bind_eq_some.2 ⟨_, _, rfl, ?_⟩
    rw [if_pos herr]
    rfl
  | .next hv herr h => by
    obtain ⟨n, hn⟩ := hv.eventually
    obtain ⟨m, hm⟩ := h.eventually
    refine ⟨max n m, fun fuel hfuel acc => ?_⟩
    rw [collect]
    refine run_bind_eq_some.2 ⟨_, _, hn fuel (by omega), ?_⟩
    refine run_bind_eq_some.2 ⟨_, _, rfl, ?_⟩
    rw [if_neg (by simp [herr]), hm fuel (by omega)]
    simp

theorem DecodesWithin.eventually {element : DecodeOp} {stop : Nat} {r r' : Reader}
    {vs : List Value} :
    DecodesWithin p element stop r vs r' → ∃ n, ∀ fuel, n ≤ fuel → ∀ rounds acc,
      stop ≤ r.offset + rounds →
      (collectWithin (element.run (p.decode fuel)) stop rounds acc).run r =
        some (acc.reverse ++ vs, r')
  | .done element hstop => ⟨0, fun fuel _ rounds acc _ => by
      rw [List.append_nil]
      exact run_collectWithin_of_le hstop acc rounds⟩
  | .failed hlt hv herr => by
    obtain ⟨n, hn⟩ := hv.eventually
    refine ⟨n, fun fuel hfuel rounds acc hrounds => ?_⟩
    obtain ⟨k, rfl⟩ : ∃ k, rounds = k + 1 := ⟨rounds - 1, by omega⟩
    rw [run_collectWithin_succ hlt (hn fuel hfuel), herr, List.append_nil]
  | .idle hlt hv herr hoff => by
    obtain ⟨n, hn⟩ := hv.eventually
    refine ⟨n, fun fuel hfuel rounds acc hrounds => ?_⟩
    obtain ⟨k, rfl⟩ : ∃ k, rounds = k + 1 := ⟨rounds - 1, by omega⟩
    rw [run_collectWithin_succ hlt (hn fuel hfuel), herr]
    simp [hoff]
  | .next hlt hv herr hoff h => by
    obtain ⟨n, hn⟩ := hv.eventually
    obtain ⟨m, hm⟩ := h.eventually
    refine ⟨max n m, fun fuel hfuel rounds acc hrounds => ?_⟩
    obtain ⟨k, rfl⟩ : ∃ k, rounds = k + 1 := ⟨rounds - 1, by omega⟩
    have hv' := hn fuel (by omega)
    have hle := (element.run_advancing (p.decode_advancing fuel) _ _ _ hv').offset_le
    rw [run_collectWithin_succ hlt hv', herr]
    simp only [if_neg hoff]
    rw [hm fuel (by omega) k _ (by omega)]
    simp

end

/-- **Decoding has one result at most.** -/
theorem Decodes.unique {op : DecodeOp} {r r₁ r₂ : Reader} {v₁ v₂ : Value}
    (h₁ : Decodes p op r v₁ r₁) (h₂ : Decodes p op r v₂ r₂) : v₁ = v₂ ∧ r₁ = r₂ := by
  obtain ⟨n, hn⟩ := h₁.eventually
  obtain ⟨m, hm⟩ := h₂.eventually
  have h := (hn (max n m) (Nat.le_max_left _ _)).symm.trans (hm (max n m) (Nat.le_max_right _ _))
  simpa using h

end WireGrammar
