import Mathlib.Data.Finset.Card
import Mathlib.Logic.Relation
import WireGrammar.Proofs.Routine.Emission

/-!
# References that avoid every array

A type may contain itself through an array: an empty array ends the recursion.  Without an array in
between it would have no finite value.

* `Schema.Grounded` — no declaration reaches itself through references outside arrays.
* `Program.Grounded` — the same for the calls of routines; it follows for every emitted program
  (`Schema.Grounded.program`).
* `Program.exists_rank` — a rank of names, at most the number of routines, that calls outside arrays
  lower where they reach no cycle (`Program.Founded`).  All bounds on the depth of calls come from
  it.
* `Tree.schema`, `Tree.program` — a type that contains itself, but only in an array.
-/

set_option autoImplicit false
namespace WireGrammar

/-- The declaration `a` refers to `b` outside every array. -/
def Schema.Inlines (s : Schema) (a b : String) : Prop :=
  ∃ d ∈ s.decls, d.name = a ∧ b ∈ d.type.inlineRefs

/-- **No reference cycle avoids every array.** -/
def Schema.Grounded (s : Schema) : Prop :=
  ∀ name, ¬ Relation.TransGen s.Inlines name name

/-- It is enough to rank the names so that references outside arrays go down. -/
theorem Schema.grounded_of_rank {s : Schema} (rank : String → Nat)
    (h : ∀ d ∈ s.decls, ∀ b ∈ d.type.inlineRefs, rank b < rank d.name) : s.Grounded := by
  have hlt : ∀ a b, Relation.TransGen s.Inlines a b → rank b < rank a := by
    intro a b hab
    induction hab with
    | single hab =>
      obtain ⟨d, hd, rfl, hb⟩ := hab
      exact h d hd _ hb
    | tail _ hbc ih =>
      obtain ⟨d, hd, rfl, hc⟩ := hbc
      exact (h d hd _ hc).trans ih
  exact fun name hn => Nat.lt_irrefl _ (hlt name name hn)

namespace Program

/-- The routine of `a` calls `b` before it enters any array. -/
def Inlines (p : Program) (a b : String) : Prop :=
  ∃ r, p.routine? a = some r ∧ b ∈ r.encode.inlineCalls

/-- No cycle of calls avoids every array. -/
def Grounded (p : Program) : Prop :=
  ∀ name, ¬ Relation.TransGen p.Inlines name name

/-- The names that have a routine. -/
def names (p : Program) : Finset String :=
  (p.routines.map (·.name)).toFinset

theorem mem_names_of_routine? {p : Program} {name : String} {r : Routine}
    (h : p.routine? name = some r) : name ∈ p.names := by
  have hname : r.name = name := by simpa using List.find?_some h
  rw [names, List.mem_toFinset, ← hname]
  exact List.mem_map_of_mem (List.mem_of_find?_eq_some h)

theorem card_names_le (p : Program) : p.names.card ≤ p.routines.length :=
  (List.toFinset_card_le _).trans_eq (List.length_map _)

open Classical in
/-- The names that the routine of `a` reaches without entering an array. -/
noncomputable def reached (p : Program) (a : String) : Finset String :=
  p.names.filter fun b => Relation.TransGen p.Inlines a b

theorem mem_reached {p : Program} {a b : String} :
    b ∈ p.reached a ↔ b ∈ p.names ∧ Relation.TransGen p.Inlines a b := by
  classical
  simp [reached]

variable {p : Program} {a b : String}

/-- No cycle of calls that avoids every array is reached from `a` outside arrays. -/
def Founded (p : Program) (a : String) : Prop :=
  ∀ b, Relation.ReflTransGen p.Inlines a b → ¬ Relation.TransGen p.Inlines b b

theorem Grounded.founded (hp : p.Grounded) (a : String) : p.Founded a :=
  fun b _ => hp b

/-- A cycle that is reached from `a` is reached from what `a` calls. -/
theorem founded_of_inlines (h : ∀ b, p.Inlines a b → p.Founded b) : p.Founded a := by
  intro c hac hcycle
  rcases Relation.ReflTransGen.cases_head hac with rfl | ⟨b, hab, hbc⟩
  · obtain ⟨b, hab, hba⟩ := Relation.TransGen.head'_iff.1 hcycle
    exact h b hab a hba hcycle
  · exact h b hab c hbc hcycle

/-- A call outside arrays reaches strictly less than its caller. -/
theorem Founded.reached_ssubset (ha : p.Founded a) (hab : p.Inlines a b) (hb : b ∈ p.names) :
    p.reached b ⊂ p.reached a := by
  refine (Finset.ssubset_iff_of_subset fun c hc => ?_).2 ⟨b, ?_, fun h => ?_⟩
  · obtain ⟨hc, hbc⟩ := mem_reached.1 hc
    exact mem_reached.2 ⟨hc, hbc.head hab⟩
  · exact mem_reached.2 ⟨hb, .single hab⟩
  · exact ha b (.single hab) (mem_reached.1 h).2

theorem Founded.reached_card_lt (ha : p.Founded a) (hmem : a ∈ p.names) :
    (p.reached a).card < p.names.card := by
  refine Finset.card_lt_card ((Finset.ssubset_iff_of_subset fun c hc => (mem_reached.1 hc).1).2 ?_)
  exact ⟨a, hmem, fun h => ha a .refl (mem_reached.1 h).2⟩

/-- **A rank that calls outside arrays lower**, at most the number of routines, wherever they reach
no cycle. -/
theorem exists_rank (p : Program) :
    ∃ rank : String → Nat, (∀ a, rank a ≤ p.routines.length) ∧
      ∀ a b, p.Founded a → p.Inlines a b → rank b < rank a := by
  classical
  -- names without a routine call nothing and come last; those that reach a cycle do not matter
  refine ⟨fun a => if a ∈ p.names ∧ p.Founded a then (p.reached a).card + 1 else 0, fun a => ?_, ?_⟩
  · by_cases ha : a ∈ p.names ∧ p.Founded a
    · have hlt := ha.2.reached_card_lt ha.1
      have hle := p.card_names_le
      simp only [if_pos ha]
      omega
    · simp only [if_neg ha]
      exact Nat.zero_le _
  · intro a b ha hab
    have ⟨r, hr, _⟩ := hab
    simp only [if_pos (And.intro (mem_names_of_routine? hr) ha)]
    by_cases hb : b ∈ p.names ∧ p.Founded b
    · simp only [if_pos hb]
      exact Nat.add_lt_add_right (Finset.card_lt_card (ha.reached_ssubset hab hb.1)) 1
    · simp only [if_neg hb]
      exact Nat.succ_pos _

/-- Without any cycle that avoids every array, every call outside arrays lowers the rank. -/
theorem Grounded.exists_rank (hp : p.Grounded) :
    ∃ rank : String → Nat, (∀ a, rank a ≤ p.routines.length) ∧
      ∀ a b, p.Inlines a b → rank b < rank a := by
  obtain ⟨rank, hle, hlt⟩ := p.exists_rank
  exact ⟨rank, hle, fun a b => hlt a b (hp.founded a)⟩

end Program

/-- **A program has no more cycles than its schema.** -/
theorem Schema.Grounded.program {s : Schema} {verifyCrc : Bool} {p : Program} (hs : s.Grounded)
    (h : s.emit verifyCrc = .ok p) : p.Grounded := by
  intro name hn
  refine hs name (Relation.TransGen.mono ?_ _ _ hn)
  intro a b hab
  obtain ⟨r, hr, hb⟩ := hab
  obtain ⟨d, hd, rfl, hdr⟩ := s.exists_decl_of_emit h hr
  refine ⟨d, hd, rfl, ?_⟩
  rcases (TypeDecl.routine?_cases hdr).2 with ⟨q, -, he, -⟩ | ⟨he, -⟩
  · rw [he] at hb
    simp [EncodeOp.inlineCalls] at hb
  · exact Ty.mem_inlineRefs_of_encodeOp he hb

/-! ## A type that contains itself

Trees with a guarded mark at every node, as the instance at which the theorems are tried out.
-/

namespace Tree

/-- A tree contains its mark outside arrays, and itself only in an array. -/
def schema : Schema where
  decls := [
    ⟨"Tree", .struct [⟨"Size", .scalar (.int .int32)⟩, ⟨"Mark", .named "Mark"⟩,
      ⟨"Trees", .array (.named "Tree") .size⟩]⟩,
    ⟨"Mark", .struct [⟨"CRC", .scalar (.int .uint32)⟩, ⟨"v", .scalar (.int .int8)⟩]⟩,
    ⟨"Top", .named "Tree"⟩]

theorem grounded : schema.Grounded := by
  refine Schema.grounded_of_rank
    (fun name => if name = "Top" then 2 else if name = "Tree" then 1 else 0) ?_
  simp [schema, Ty.inlineRefs, Ty.inlineRefsOfFields]

/-- The routines of trees and their marks. -/
def program : Program where
  routines := [
    ⟨"Tree", .framed .size true [⟨"Mark", .call "Mark"⟩, ⟨"Trees", .sizeArray (.call "Tree")⟩],
      .framed .size true true [⟨"Mark", .call "Mark"⟩, ⟨"Trees", .sizeArray (.call "Tree")⟩]⟩,
    ⟨"Mark", .framed .crc false [⟨"v", .write (.int .int8)⟩],
      .framed .crc false true [⟨"v", .read (.int .int8)⟩]⟩,
    ⟨"Top", .call "Tree", .call "Tree"⟩]
  skipped := []

theorem emit_schema : schema.emit true = .ok program := rfl

end Tree
end WireGrammar
