import Mathlib.Logic.Relation
import WireGrammar.Codec

/-!
# Why encoding stops

Encoding stops at a value that is not of its type, at an alternation, or for want of a routine or of
calls.  The first depends on the value, the others only on the routines that are reached by calls.

* `EncodeM.Raises m P` — every error that the step `m` stops with satisfies `P`.
* `EncodeOp.alternations` — the alternations that an operation meets.
* `Program.StopsWith` — the reasons why encoding as a type can stop; `Program.encode_raises` says
  that there are no others.
-/

set_option autoImplicit false
namespace WireGrammar

namespace EncodeM

variable {α β : Type}

/-- Every error that the step stops with satisfies `P`. -/
def Raises (m : EncodeM α) (P : CodecError → Prop) : Prop :=
  ∀ (w : Writer) (e : CodecError), (exec m w).1 = .error e → P e

variable {P Q : CodecError → Prop}

theorem raises_pure (a : α) : Raises (pure a) P := by
  intro w e h
  cases h

theorem raises_get : Raises (get : EncodeM Writer) P := by
  intro w e h
  cases h

theorem raises_modify (f : Writer → Writer) : Raises (modify f) P := by
  intro w e h
  cases h

theorem raises_throw {e : CodecError} (he : P e) : Raises (throw e : EncodeM α) P := by
  intro w e' h
  cases h
  exact he

theorem Raises.bind {m : EncodeM α} {k : α → EncodeM β} (hm : Raises m P)
    (hk : ∀ a, Raises (k a) P) : Raises (m >>= k) P := by
  intro w e
  rw [exec_bind]
  have h := hm w e
  generalize exec m w = result at h
  obtain ⟨e' | a, w'⟩ := result
  · exact fun he => h (congrArg Except.error (Except.error.inj he))
  · exact hk a w' e

theorem Raises.mono {m : EncodeM α} (hm : Raises m P) (h : ∀ e, P e → Q e) : Raises m Q :=
  fun w e he => h e (hm w e he)

end EncodeM

open EncodeM

mutual

/-- The declarations whose alternations an operation meets. -/
def EncodeOp.alternations : EncodeOp → List String
  | .write _ | .writeAlias .. | .call _ => []
  | .struct ops => alternationsOfFields ops
  | .framed _ _ body => alternationsOfFields body
  | .lengthArray element | .sizeArray element => element.alternations
  | .unsupported owner => [owner]

/-- The declarations whose alternations the operations of fields meet. -/
def EncodeOp.alternationsOfFields : List (Field EncodeOp) → List String
  | [] => []
  | ⟨_, op⟩ :: ops => op.alternations ++ alternationsOfFields ops

end

/-- An error that lies in the value alone: it is not of the type, or too long. -/
inductive CodecError.OfValue : CodecError → Prop
  | mismatch (expected found : String) : OfValue (.valueMismatch expected found)
  | tooLong (e : EncodeError) : OfValue (.encode e)

section Operations

variable {P : CodecError → Prop} {call : String → Option Value → EncodeM Unit}

theorem putPrimitive_raises (hvalue : ∀ e, e.OfValue → P e) (p : Primitive) (v : Value) :
    Raises (putPrimitive p v) P := by
  have hmismatch : Raises (throw (.mismatch p.name v) : EncodeM Unit) P :=
    raises_throw (hvalue _ (.mismatch _ _))
  unfold putPrimitive
  split
  · split
    · exact raises_modify _
    · exact hmismatch
  · exact raises_modify _
  · exact raises_modify _
  · exact hmismatch

theorem putAll_raises {item : Value → EncodeM Unit} (h : ∀ v, Raises (item v) P) :
    ∀ vs : List Value, Raises (putAll item vs) P
  | [] => raises_pure ()
  | v :: vs => (h v).bind fun _ => putAll_raises h vs

mutual

/-- **What an operation stops with** lies in the value, or in an alternation of the operation, or in
a routine that it calls. -/
theorem EncodeOp.run_raises (hvalue : ∀ e, e.OfValue → P e) :
    ∀ (op : EncodeOp) (v : Option Value), (∀ owner ∈ op.alternations, P (.unsupported owner)) →
      (∀ name ∈ op.calls, ∀ u, Raises (call name u) P) → Raises (op.run call v) P
  | .write p, v, _, _ => by
    rw [run]
    exact putPrimitive_raises hvalue p _
  | .writeAlias typeName p, v, _, _ => by
    rw [run]
    split
    · split
      · exact putPrimitive_raises hvalue p _
      · exact raises_throw (hvalue _ (.mismatch _ _))
    · exact raises_throw (hvalue _ (.mismatch _ _))
  | .call name, v, _, hcall => by
    rw [run]
    exact hcall name (by simp [calls]) v
  | .struct ops, v, halt, hcall => by
    rw [run]
    split
    · rw [alternations] at halt
      rw [calls] at hcall
      exact runFields_raises hvalue ops _ halt hcall
    · exact raises_throw (hvalue _ (.mismatch _ _))
  | .framed framing signed body, v, halt, hcall => by
    rw [run]
    split
    · rw [alternations] at halt
      rw [calls] at hcall
      exact raises_get.bind fun _ => (putPrimitive_raises hvalue _ _).bind fun _ =>
        raises_get.bind fun _ => (runFields_raises hvalue body _ halt hcall).bind fun _ =>
          raises_modify _
    · exact raises_throw (hvalue _ (.mismatch _ _))
  | .lengthArray element, v, halt, hcall => by
    rw [run]
    split
    · split
      · rw [alternations] at halt
        rw [calls] at hcall
        exact (raises_modify _).bind fun _ =>
          putAll_raises (fun item => run_raises hvalue element (some item) halt hcall) _
      · exact raises_throw (hvalue _ (.tooLong _))
    · exact raises_throw (hvalue _ (.mismatch _ _))
  | .sizeArray element, v, halt, hcall => by
    rw [run]
    split
    · rw [alternations] at halt
      rw [calls] at hcall
      have hitems := putAll_raises fun item => run_raises hvalue element (some item) halt hcall
      exact raises_get.bind fun _ => (raises_modify _).bind fun _ => raises_get.bind fun _ =>
        (hitems _).bind fun _ => raises_modify _
    · exact raises_throw (hvalue _ (.mismatch _ _))
  | .unsupported owner, v, halt, _ => by
    rw [run]
    exact raises_throw (halt owner (by simp [alternations]))

theorem EncodeOp.runFields_raises (hvalue : ∀ e, e.OfValue → P e) :
    ∀ (ops : List (Field EncodeOp)) (fields : List (Field Value)),
      (∀ owner ∈ alternationsOfFields ops, P (.unsupported owner)) →
      (∀ name ∈ callsOfFields ops, ∀ u, Raises (call name u) P) →
      Raises (runFields call fields ops) P
  | [], fields, _, _ => by
    rw [runFields]
    exact raises_pure ()
  | ⟨name, op⟩ :: ops, fields, halt, hcall => by
    rw [runFields]
    rw [alternationsOfFields] at halt
    rw [callsOfFields] at hcall
    refine Raises.bind ?_ fun _ => ?_
    · exact run_raises hvalue op _ (fun o ho => halt o (List.mem_append_left _ ho))
        (fun n hn => hcall n (List.mem_append_left _ hn))
    · exact runFields_raises hvalue ops fields (fun o ho => halt o (List.mem_append_right _ ho))
        (fun n hn => hcall n (List.mem_append_right _ hn))

end

end Operations

namespace Program

/-- The routine of `a` calls `b`, in an array or not. -/
def Calls (p : Program) (a b : String) : Prop :=
  ∃ r, p.routine? a = some r ∧ b ∈ r.encode.calls

/-- A routine that is reached from `name` by calls has an alternation of the declaration `owner`. -/
def ReachesAlternation (p : Program) (name owner : String) : Prop :=
  ∃ n r, Relation.ReflTransGen p.Calls name n ∧ p.routine? n = some r ∧
    owner ∈ r.encode.alternations

/-- **The reasons why encoding as the type `name` can stop.**  Besides those that lie in the value,
one of the routines that are reached by calls is missing or has an alternation. -/
inductive StopsWith (p : Program) (name : String) : CodecError → Prop
  | ofValue {e : CodecError} (he : e.OfValue) : StopsWith p name e
  | unbounded (n : String) : StopsWith p name (.unbounded n)
  | missing {n : String} (hn : Relation.ReflTransGen p.Calls name n)
      (hr : p.routine? n = none) : StopsWith p name (p.missing n)
  | unsupported {owner : String} (h : p.ReachesAlternation name owner) :
      StopsWith p name (.unsupported owner)

variable {p : Program}

theorem StopsWith.head {a b : String} {e : CodecError} (hab : p.Calls a b)
    (h : p.StopsWith b e) : p.StopsWith a e := by
  cases h with
  | ofValue he => exact .ofValue he
  | unbounded n => exact .unbounded n
  | missing hn hr => exact .missing (hn.head hab) hr
  | unsupported h =>
    obtain ⟨n, r, hn, hr, ho⟩ := h
    exact .unsupported ⟨n, r, hn.head hab, hr, ho⟩

/-- **Encoding stops for no other reason.** -/
theorem encode_raises (p : Program) :
    ∀ (fuel : Nat) (name : String) (v : Option Value),
      Raises (p.encode fuel name v) (p.StopsWith name)
  | 0, name, v => raises_throw (.unbounded name)
  | fuel + 1, name, v => by
    rw [encode]
    split
    · next r hr =>
      refine r.encode.run_raises (fun _ => .ofValue) v (fun owner ho => ?_) (fun n hn u => ?_)
      · exact .unsupported ⟨name, r, .refl, hr, ho⟩
      · exact (p.encode_raises fuel n u).mono fun e => .head ⟨r, hr, hn⟩
    · next hr => exact raises_throw (.missing .refl hr)

/-- What stops at an alternation has reached it by calls. -/
theorem StopsWith.reachesAlternation {name owner : String}
    (h : p.StopsWith name (.unsupported owner)) : p.ReachesAlternation name owner := by
  generalize he : CodecError.unsupported owner = e at h
  cases h with
  | ofValue hvalue =>
    subst he
    cases hvalue
  | unbounded => cases he
  | missing =>
    rw [Program.missing] at he
    split at he <;> cases he
  | unsupported h =>
    cases he
    exact h

end Program
end WireGrammar
