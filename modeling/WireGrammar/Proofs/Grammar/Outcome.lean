import Mathlib.Data.List.Count
import Mathlib.Data.List.Forall2
import WireGrammar.Proofs.Grammar.Distinct
import WireGrammar.Proofs.Grammar.Order

/-!
# The outcome of resolving names

Whether a grammar can be resolved, and into what, is said here without the resolver: first by going
through the declarations one by one, then by looking at the nodes of each.

* `Grammar.fault?` — what is wrong with a declaration as one of several: its name is that of a
  built-in type, or an earlier declaration gives the name another meaning.
* `Expr.clashes` — some struct inside the expression has two fields of one name; the names are those
  of `Expr.fieldNames`.
* `Expr.Describes` — the type that an expression describes, rule by rule.
* `Grammar.firsts` — the first declaration of each name.
* `Outcome P E x` — what a computation gives, as a result or as an error.
* `Resolve.type_outcome` — an expression is resolved into the type that it describes, or a struct
  inside it has two fields of one name.
* `Grammar.resolve_outcome` — so the earliest fault is reported, else the first declaration with a
  clash, else there is a schema of the first declarations.
-/

set_option autoImplicit false
namespace WireGrammar

/-! ## Success and failure -/

section Outcomes

variable {ε α β : Type}

/-- The computation succeeds with a result as `P` says or fails with an error as `E` says. -/
inductive Outcome (P : α → Prop) (E : ε → Prop) : Except ε α → Prop
  | ok {a : α} (h : P a) : Outcome P E (.ok a)
  | error {e : ε} (h : E e) : Outcome P E (.error e)

namespace Outcome

variable {P P' : α → Prop} {Q : β → Prop} {E E' : ε → Prop} {x : Except ε α}

theorem mono (h : Outcome P E x) (hP : ∀ a, x = .ok a → P a → P' a) (hE : ∀ e, E e → E' e) :
    Outcome P' E' x := by
  cases h with
  | ok h => exact .ok (hP _ rfl h)
  | error h => exact .error (hE _ h)

theorem mono_error (h : Outcome P E x) (hE : ∀ e, E e → E' e) : Outcome P E' x :=
  h.mono (fun _ _ h => h) hE

theorem map {f : α → β} (h : Outcome P E x) (hf : ∀ a, P a → Q (f a)) :
    Outcome Q E (f <$> x) := by
  cases h with
  | ok h => exact .ok (hf _ h)
  | error h => exact .error h

theorem bind {f : α → Except ε β} (h : Outcome P E x) (hf : ∀ a, P a → Outcome Q E (f a)) :
    Outcome Q E (x >>= f) := by
  cases h with
  | ok h => exact hf _ h
  | error h => exact .error h

/-- **Going through a list** gives a result for each element, or the error of the first element
that has one. -/
theorem mapM {f : α → Except ε β} {R : α → β → Prop} {F : α → ε → Prop} {l : List α}
    (h : ∀ a ∈ l, Outcome (R a) (F a) (f a)) :
    Outcome (List.Forall₂ R l)
      (fun e => ∃ before a after, l = before ++ a :: after ∧ (∀ a' ∈ before, ∃ b, R a' b) ∧ F a e)
      (l.mapM f) := by
  induction l with
  | nil => exact .ok .nil
  | cons a l ih =>
    rw [List.mapM_cons]
    obtain ⟨ha, hl⟩ := List.forall_mem_cons.1 h
    refine Outcome.bind (ha.mono_error fun e he => ⟨[], a, l, rfl, nofun, he⟩) fun b hb => ?_
    refine Outcome.bind ((ih hl).mono_error ?_) fun bs hbs => .ok (.cons hb hbs)
    rintro e ⟨before, a', after, rfl, hbefore, he⟩
    exact ⟨a :: before, a', after, rfl, List.forall_mem_cons.2 ⟨⟨b, hb⟩, hbefore⟩, he⟩

end Outcome

end Outcomes

/-! ## The nodes of an expression -/

namespace Expr

mutual

/-- The expression and all that is inside it, every node in front of its children. -/
def nodes : Expr → List Expr
  | ⟨kind, label, target, children⟩ => ⟨kind, label, target, children⟩ :: nodesAll children

/-- The nodes of some expressions. -/
def nodesAll : List Expr → List Expr
  | [] => []
  | e :: es => e.nodes ++ nodesAll es

end

/-- Does the node make a struct of its children?  A single child stands for itself. -/
def makesStruct (e : Expr) : Bool :=
  (e.kind == .sequence || e.kind.isArray) && e.children.length != 1

/-- What a leaf refers to. -/
def leafTarget? (e : Expr) : Option String :=
  if e.kind = .leaf then e.target else none

/-- The name of an array of one thing that has a name. -/
def plural? (e : Expr) : Option String :=
  if e.kind.isArray ∧ e.children.length = 1 then
    e.children.head?.bind fun only => (only.label.or only.leafTarget?).map (· ++ "s")
  else none

/-- The name that the node has as the child at position `index`: its label, else what it refers to
as a leaf, else its plural, else a name made from the position. -/
def derivedName (e : Expr) (index : Nat) : String :=
  ((e.label.or e.leafTarget?).or e.plural?).getD s!"Field{index}"

/-- The names of children, the first of which is at position `index`. -/
def fieldNames (index : Nat) (children : List Expr) : List String :=
  children.mapIdx fun i e => e.derivedName (index + i)

theorem fieldNames_cons (index : Nat) (e : Expr) (es : List Expr) :
    fieldNames index (e :: es) = e.derivedName index :: fieldNames (index + 1) es := by
  rw [fieldNames, fieldNames, List.mapIdx_cons]
  simp only [Nat.add_zero, Nat.add_assoc, Nat.add_comm 1]

/-- Does some struct inside have two fields of one name? -/
def clashes (e : Expr) : Bool :=
  e.nodes.any fun n => n.makesStruct && decide ¬ (fieldNames 0 n.children).Nodup

theorem ownName?_eq (e : Expr) : e.ownName? = e.label.or e.leafTarget? := by
  obtain ⟨kind, label, target, children⟩ := e
  cases label with
  | some name => rfl
  | none => cases kind <;> rfl

end Expr

/-- **A field is called after what it is made of.** -/
theorem Resolve.fieldName_eq (e : Expr) (index : Nat) :
    fieldName e index = e.derivedName index := by
  rw [fieldName, Expr.derivedName, ← Expr.ownName?_eq]
  cases e.ownName? with
  | some name => rfl
  | none =>
    rw [Option.none_or, Expr.plural?]
    cases e.kind.isArray with
    | false => rfl
    | true =>
      cases e.children with
      | nil => rfl
      | cons only rest =>
        cases rest with
        | nil =>
          simp only [List.length_singleton, and_self, if_true, List.head?_cons, Option.bind_some,
            ← Expr.ownName?_eq]
          cases only.ownName? <;> rfl
        | cons _ _ => simp

/-! ## The type of an expression -/

mutual

/-- The type that an expression describes, if `ref` says what names refer to. -/
inductive Expr.Describes (ref : String → Ty) : Expr → Ty → Prop
  | leaf {label target : Option String} {children : List Expr} :
      Describes ref ⟨.leaf, label, target, children⟩ (ref (target.getD ""))
  | single {label target : Option String} {child : Expr} {t : Ty} (h : Describes ref child t) :
      Describes ref ⟨.sequence, label, target, [child]⟩ t
  | struct {label target : Option String} {children : List Expr} {fields : List (Field Ty)}
      (hlength : children.length ≠ 1) (hnames : fields.map (·.name) = Expr.fieldNames 0 children)
      (hnodup : (Expr.fieldNames 0 children).Nodup)
      (h : DescribesAll ref children (fields.map (·.val))) :
      Describes ref ⟨.sequence, label, target, children⟩ (.struct fields)
  | lengthArray {label target : Option String} {children : List Expr} {t : Ty}
      (h : Describes ref ⟨.sequence, label, target, children⟩ t) :
      Describes ref ⟨.lengthArray, label, target, children⟩ (.array t .length)
  | sizeArray {label target : Option String} {children : List Expr} {t : Ty}
      (h : Describes ref ⟨.sequence, label, target, children⟩ t) :
      Describes ref ⟨.sizeArray, label, target, children⟩ (.array t .size)
  | alternation {label target : Option String} {children : List Expr} {ts : List Ty}
      (h : DescribesAll ref children ts) :
      Describes ref ⟨.alternation, label, target, children⟩ (.polymorphic ts)

/-- The types that expressions describe. -/
inductive Expr.DescribesAll (ref : String → Ty) : List Expr → List Ty → Prop
  | nil : DescribesAll ref [] []
  | cons {e : Expr} {es : List Expr} {t : Ty} {ts : List Ty} (h : Describes ref e t)
      (hs : DescribesAll ref es ts) : DescribesAll ref (e :: es) (t :: ts)

end

namespace Expr

/-- No leaf among the nodes has children. -/
def BareLeaves (nodes : List Expr) : Prop :=
  ∀ n ∈ nodes, n.kind = .leaf → n.children = []

/-- No struct that one of the nodes makes has two fields of one name. -/
def NoClash (nodes : List Expr) : Prop :=
  ∀ n ∈ nodes, n.makesStruct → (fieldNames 0 n.children).Nodup

theorem clashes_eq_false_iff {e : Expr} : e.clashes = false ↔ NoClash e.nodes := by
  simp [clashes, NoClash]

/-- The names that an array makes fields of are those of a sequence. -/
theorem noClash_array {kind : NodeKind} {label target : Option String} {children : List Expr}
    (hkind : kind.isArray)
    (h : BareLeaves (nodes ⟨.sequence, label, target, children⟩) →
      NoClash (nodes ⟨.sequence, label, target, children⟩))
    (hbare : BareLeaves (nodes ⟨kind, label, target, children⟩)) :
    NoClash (nodes ⟨kind, label, target, children⟩) := by
  rw [nodes] at h hbare ⊢
  have hseq := h (List.forall_mem_cons.2 ⟨nofun, (List.forall_mem_cons.1 hbare).2⟩)
  obtain ⟨hhead, htail⟩ := List.forall_mem_cons.1 hseq
  refine List.forall_mem_cons.2 ⟨fun hstruct => hhead ?_, htail⟩
  simpa [makesStruct, hkind] using hstruct

mutual

/-- **Where a type is described, no names clash.** -/
theorem Describes.noClash {ref : String → Ty} :
    ∀ {e : Expr} {t : Ty}, Describes ref e t → BareLeaves e.nodes → NoClash e.nodes
  | _, _, @Describes.leaf _ _ _ children, hbare => by
    rw [nodes] at hbare ⊢
    have hnil : children = [] := (List.forall_mem_cons.1 hbare).1 rfl
    subst hnil
    exact List.forall_mem_cons.2 ⟨nofun, nofun⟩
  | _, _, .single h, hbare => by
    rw [nodes] at hbare ⊢
    have hchild := (List.forall_mem_cons.1 hbare).2
    rw [nodesAll, nodesAll, List.append_nil] at hchild ⊢
    exact List.forall_mem_cons.2 ⟨nofun, h.noClash hchild⟩
  | _, _, .struct _ _ hnodup h, hbare => by
    rw [nodes] at hbare ⊢
    exact List.forall_mem_cons.2 ⟨fun _ => hnodup, h.noClash (List.forall_mem_cons.1 hbare).2⟩
  | _, _, .lengthArray h, hbare => noClash_array rfl h.noClash hbare
  | _, _, .sizeArray h, hbare => noClash_array rfl h.noClash hbare
  | _, _, .alternation h, hbare => by
    rw [nodes] at hbare ⊢
    exact List.forall_mem_cons.2 ⟨nofun, h.noClash (List.forall_mem_cons.1 hbare).2⟩

theorem DescribesAll.noClash {ref : String → Ty} :
    ∀ {es : List Expr} {ts : List Ty}, DescribesAll ref es ts → BareLeaves (nodesAll es) →
      NoClash (nodesAll es)
  | _, _, .nil, _ => nofun
  | _, _, .cons h hs, hbare => by
    rw [nodesAll] at hbare ⊢
    obtain ⟨hhead, htail⟩ := List.forall_mem_append.1 hbare
    exact List.forall_mem_append.2 ⟨h.noClash hhead, hs.noClash htail⟩

end

end Expr

/-! ## Resolving an expression -/

namespace Resolve

/-- The error names the declaration `owner` and a name that two fields of one of the nodes have. -/
def Reports (owner : String) (nodes : List Expr) (err : CompileError) : Prop :=
  ∃ n ∈ nodes, ∃ field, n.makesStruct ∧ 2 ≤ (Expr.fieldNames 0 n.children).count field ∧
    err = .duplicateField owner field

theorem Reports.mono {owner : String} {nodes nodes' : List Expr} {err : CompileError}
    (h : Reports owner nodes err) (hsub : nodes ⊆ nodes') : Reports owner nodes' err := by
  obtain ⟨n, hn, hfield⟩ := h
  exact ⟨n, hsub hn, hfield⟩

/-- Where there is such an error, names clash. -/
theorem Reports.not_noClash {owner : String} {nodes : List Expr} {err : CompileError}
    (h : Reports owner nodes err) : ¬ Expr.NoClash nodes := by
  obtain ⟨n, hn, field, hstruct, hcount, -⟩ := h
  intro hnone
  have hle := List.nodup_iff_count_le_one.1 (hnone n hn hstruct) field
  omega

/-- The error names the declaration `owner` and a name that stands twice among `names`. -/
def Repeats (owner : String) (names : List String) (err : CompileError) : Prop :=
  ∃ field, 2 ≤ names.count field ∧ err = .duplicateField owner field

/-- A single type stands for itself, any other number of types makes a struct. -/
theorem describes_combine {ref : String → Ty} {label target : Option String} {children : List Expr}
    {fs : List (Field Ty)} (hnames : fs.map (·.name) = Expr.fieldNames 0 children)
    (hnodup : (fs.map (·.name)).Nodup) (h : Expr.DescribesAll ref children (fs.map (·.val))) :
    Expr.Describes ref ⟨.sequence, label, target, children⟩ (combine fs) := by
  have hlength := congrArg List.length hnames
  rw [List.length_map, Expr.fieldNames, List.length_mapIdx] at hlength
  rw [combine.eq_def]
  split
  · cases h with
    | cons h hs =>
      cases hs
      exact .single h
  · next hne =>
    refine .struct (fun hone => ?_) hnames (hnames ▸ hnodup) h
    obtain ⟨f, rfl⟩ := List.length_eq_one_iff.1 (hlength.trans hone)
    exact hne f rfl

/-- A sequence, or the element of an array, is resolved if its fields are. -/
theorem combine_outcome {ref : String → Ty} {owner : String} {kind : NodeKind}
    {label target : Option String} {children : List Expr} (hkind : kind = .sequence ∨ kind.isArray)
    (h : Outcome (fun fs => fs.map (·.name) = Expr.fieldNames 0 children ∧
        Expr.DescribesAll ref children (fs.map (·.val)))
      (fun err => Reports owner (Expr.nodesAll children) err ∨
        Repeats owner (Expr.fieldNames 0 children) err) (fields ref owner [] 0 children)) :
    Outcome (fun fs => Expr.Describes ref ⟨.sequence, label, target, children⟩ (combine fs))
      (Reports owner (Expr.nodes ⟨kind, label, target, children⟩))
      (fields ref owner [] 0 children) := by
  refine h.mono (fun fs hfs ⟨hnames, hdesc⟩ => ?_) fun err herr => ?_
  · exact describes_combine hnames (nodup_fields hfs).1 hdesc
  · rw [Expr.nodes]
    rcases herr with hreport | ⟨field, hcount, rfl⟩
    · exact hreport.mono (List.subset_cons_self _ _)
    · refine ⟨_, List.mem_cons_self, field, ?_, hcount, rfl⟩
      -- a single field shares its name with no other
      have hlength := Nat.le_trans hcount List.count_le_length
      rw [Expr.fieldNames, List.length_mapIdx] at hlength
      have hne : children.length ≠ 1 := by omega
      rcases hkind with rfl | hkind
      · simpa [Expr.makesStruct] using hne
      · simpa [Expr.makesStruct, hkind] using hne

mutual

/-- **An expression is resolved into the type that it describes**, or a struct inside it has two
fields of one name. -/
theorem type_outcome (ref : String → Ty) (owner : String) :
    ∀ e : Expr, Outcome (e.Describes ref) (Reports owner e.nodes) (type ref owner e)
  | ⟨.leaf, _, target, _⟩ => .ok .leaf
  | ⟨.sequence, _, _, children⟩ =>
    (combine_outcome (.inl rfl) (fields_outcome ref owner [] 0 children)).map fun _ h => h
  | ⟨.lengthArray, _, _, children⟩ =>
    (combine_outcome (.inr rfl) (fields_outcome ref owner [] 0 children)).map fun _ h =>
      .lengthArray h
  | ⟨.sizeArray, _, _, children⟩ =>
    (combine_outcome (.inr rfl) (fields_outcome ref owner [] 0 children)).map fun _ h =>
      .sizeArray h
  | ⟨.alternation, _, _, children⟩ => by
    refine Outcome.map ((types_outcome ref owner children).mono_error ?_) fun _ h => .alternation h
    intro err herr
    rw [Expr.nodes]
    exact herr.mono (List.subset_cons_self _ _)

theorem types_outcome (ref : String → Ty) (owner : String) :
    ∀ es : List Expr, Outcome (Expr.DescribesAll ref es) (Reports owner (Expr.nodesAll es))
      (types ref owner es)
  | [] => .ok .nil
  | e :: es => by
    rw [types, Expr.nodesAll]
    refine Outcome.bind ((type_outcome ref owner e).mono_error fun err herr =>
      herr.mono (List.subset_append_left _ _)) fun t ht => ?_
    refine Outcome.bind ((types_outcome ref owner es).mono_error fun err herr =>
      herr.mono (List.subset_append_right _ _)) fun ts hts => ?_
    exact .ok (.cons ht hts)

theorem fields_outcome (ref : String → Ty) (owner : String) :
    ∀ (seen : List String) (index : Nat) (es : List Expr),
      Outcome (fun fs => fs.map (·.name) = Expr.fieldNames index es ∧
          Expr.DescribesAll ref es (fs.map (·.val)))
        (fun err => Reports owner (Expr.nodesAll es) err ∨
          Repeats owner (seen ++ Expr.fieldNames index es) err)
        (fields ref owner seen index es)
  | seen, index, [] => .ok ⟨rfl, .nil⟩
  | seen, index, e :: es => by
    rw [fields, fieldName_eq, Expr.nodesAll, Expr.fieldNames_cons]
    split
    · next htaken =>
      refine .error (.inr ⟨_, ?_, rfl⟩)
      have hseen := List.count_pos_iff.2 (List.contains_iff_mem.1 htaken)
      rw [List.count_append, List.count_cons_self]
      omega
    · refine Outcome.bind ((type_outcome ref owner e).mono_error fun err herr =>
        .inl (herr.mono (List.subset_append_left _ _))) fun t ht => ?_
      refine Outcome.bind ((fields_outcome ref owner (_ :: seen) (index + 1) es).mono_error ?_)
        fun fs ⟨hnames, hfs⟩ => ?_
      · rintro err (herr | ⟨field, hcount, rfl⟩)
        · exact .inl (herr.mono (List.subset_append_right _ _))
        · refine .inr ⟨field, ?_, rfl⟩
          rwa [List.perm_middle.count_eq]
      · refine .ok ⟨?_, .cons ht hfs⟩
        rw [List.map_cons, hnames]

end

end Resolve

/-! ## Telling declarations apart -/

namespace Resolve

variable {kept before rest ds out : List Decl}

/-- Declarations can be told apart in two steps. -/
theorem distinctFrom_append :
    distinctFrom kept (before ++ rest) =
      distinctFrom kept before >>= fun out => distinctFrom out.reverse rest := by
  induction before generalizing kept with
  | nil =>
    rw [distinctFrom, List.nil_append]
    exact congrArg (distinctFrom · rest) kept.reverse_reverse.symm
  | cons d before ih =>
    rw [List.cons_append, distinctFrom, distinctFrom]
    split
    · rfl
    · split
      · split
        · exact ih
        · rfl
      · exact ih

/-- What is kept is what comes first. -/
theorem eq_loop_of_distinctFrom (h : distinctFrom kept ds = .ok out) :
    out = List.eraseDupsBy.loop (·.name == ·.name) ds kept := by
  fun_induction distinctFrom kept ds with
  | case1 kept =>
    cases h
    rfl
  | case2 => cases h
  | case3 kept d ds _ first hfirst _ ih =>
    rw [List.eraseDupsBy.loop, ih h]
    have hany : kept.any (d.name == ·.name) := by
      have hname : first.name = d.name := by simpa using List.find?_some hfirst
      exact List.any_eq_true.2 ⟨first, List.mem_of_find?_eq_some hfirst, by simp [hname]⟩
    rw [hany]
  | case4 => cases h
  | case5 kept d ds _ hnone ih =>
    rw [List.eraseDupsBy.loop, ih h]
    have hany : kept.any (d.name == ·.name) = false := by
      refine List.any_eq_false.2 fun d' hd' => ?_
      rw [BEq.comm]
      exact List.find?_eq_none.1 hnone d' hd'
    rw [hany]

/-- Among the declarations that are kept, each can be found by its name. -/
theorem find?_reverse_of_distinctFrom (h : distinctFrom [] before = .ok out) {d : Decl}
    (hd : d ∈ before) : out.reverse.find? (·.name == d.name) = some d := by
  have hnodup : (out.reverse.map (·.name)).Nodup := by
    rw [List.map_reverse, List.nodup_reverse]
    exact nodup_distinctFrom h List.nodup_nil
  refine (find?_eq_some_iff_of_nodup hnodup).2 ⟨List.mem_reverse.2 ?_, rfl⟩
  exact (mem_distinctFrom h).2 (.inr hd)

end Resolve

namespace Grammar

variable {g : Grammar} {d d' : Decl}

/-- What is wrong with a declaration of the grammar: its name is reserved, or the first declaration
of that name is another. -/
def fault? (g : Grammar) (d : Decl) : Option CompileError :=
  if Primitive.isName d.name then some (.reservedName d.name)
  else if (g.get? d.name).any (·.expr ≠ d.expr) then some (.conflict d.name)
  else none

/-- The first declaration of each name, in order. -/
def firsts (g : Grammar) : List Decl :=
  g.decls.eraseDupsBy (·.name == ·.name)

theorem not_isName_of_fault?_eq_none (h : g.fault? d = none) : ¬ Primitive.isName d.name := by
  intro hname
  rw [fault?, if_pos hname] at h
  cases h

/-- A declaration that has nothing wrong is the first of its name. -/
theorem get?_of_fault?_eq_none (hd : d ∈ g.decls) (h : g.fault? d = none) :
    g.get? d.name = some d := by
  rw [fault?, if_neg (not_isName_of_fault?_eq_none h)] at h
  cases hfirst : g.get? d.name with
  | none => exact absurd (List.find?_eq_none.1 hfirst d hd) (by simp)
  | some first =>
    have hname : first.name = d.name := by simpa using List.find?_some hfirst
    have hexpr : first.expr = d.expr := by simpa [hfirst] using h
    obtain ⟨name, expr⟩ := first
    obtain ⟨name', expr'⟩ := d
    cases hname
    cases hexpr
    rfl

/-- Declarations that have nothing wrong can be told apart. -/
theorem exists_distinctFrom_of_fault? {ds : List Decl} (hsub : ds ⊆ g.decls)
    (h : ∀ d ∈ ds, g.fault? d = none) : ∃ out, Resolve.distinctFrom [] ds = .ok out := by
  refine Resolve.exists_distinctFrom (fun d hd => not_isName_of_fault?_eq_none (h d hd)) ?_
  intro d hd d' hd' hname
  have hmem := hd.resolve_left List.not_mem_nil
  have hget := get?_of_fault?_eq_none (hsub hmem) (h d hmem)
  have hget' := get?_of_fault?_eq_none (hsub hd') (h d' hd')
  rw [hname, hget'] at hget
  exact (Option.some.inj hget).symm

/-- **Where nothing is wrong, the first declarations are kept.** -/
theorem distinct_of_fault?_eq_none (h : g.decls.findSome? g.fault? = none) :
    g.distinct = .ok g.firsts := by
  obtain ⟨out, hout⟩ := exists_distinctFrom_of_fault? (List.Subset.refl _)
    (List.findSome?_eq_none_iff.1 h)
  rw [distinct, hout, Resolve.eq_loop_of_distinctFrom hout]
  rfl

/-- **The earliest fault is reported.** -/
theorem distinct_of_fault? {err : CompileError} (h : g.decls.findSome? g.fault? = some err) :
    g.distinct = .error err := by
  obtain ⟨before, d, after, hdecls, hfault, hbefore⟩ := List.findSome?_eq_some_iff.1 h
  have hsub : before ⊆ g.decls := by
    rw [hdecls]
    exact List.subset_append_left _ _
  obtain ⟨out, hout⟩ := exists_distinctFrom_of_fault? hsub hbefore
  rw [distinct, hdecls, Resolve.distinctFrom_append, hout]
  change Resolve.distinctFrom out.reverse (d :: after) = .error err
  rw [Resolve.distinctFrom]
  rw [fault?] at hfault
  split at hfault
  · next hname =>
    cases hfault
    rw [if_pos hname]
  · next hname =>
    split at hfault
    · next hconflict =>
      cases hfault
      obtain ⟨first, hfirst, hne⟩ := (Option.any_eq_true _ _).1 hconflict
      have hname' : first.name = d.name := by simpa using List.find?_some hfirst
      have hmem : first ∈ before := by
        rw [get?, hdecls, List.find?_append] at hfirst
        cases hbefore' : before.find? (·.name == d.name) with
        | none =>
          rw [hbefore', Option.none_or, List.find?_cons, beq_self_eq_true] at hfirst
          cases hfirst
          exact absurd rfl (of_decide_eq_true hne)
        | some first' =>
          rw [hbefore', Option.some_or] at hfirst
          cases hfirst
          exact List.mem_of_find?_eq_some hbefore'
      rw [if_neg hname, ← hname', Resolve.find?_reverse_of_distinctFrom hout hmem]
      exact if_neg (of_decide_eq_true hne)
    · cases hfault

/-- A copy of an earlier declaration adds nothing. -/
theorem distinct_copy {before after : List Decl} (hd : d ∈ before) :
    distinct ⟨before ++ d :: after⟩ = distinct ⟨before ++ after⟩ := by
  rw [distinct, distinct, Resolve.distinctFrom_append, Resolve.distinctFrom_append]
  cases hout : Resolve.distinctFrom [] before with
  | error err => rfl
  | ok out =>
    change Resolve.distinctFrom out.reverse (d :: after) = Resolve.distinctFrom out.reverse after
    rw [Resolve.distinctFrom, if_neg (Resolve.not_isName_of_distinctFrom hout d hd),
      Resolve.find?_reverse_of_distinctFrom hout hd]
    exact if_pos rfl

theorem resolve_copy {before after : List Decl} (hd : d ∈ before) :
    resolve ⟨before ++ d :: after⟩ = resolve ⟨before ++ after⟩ := by
  rw [resolve, resolve, distinct_copy hd]

/-- **Names are resolved declaration by declaration.**  Where nothing is wrong with the
declarations, the schema has the types that the first of each name describe, or the error is about
the first of them that holds a clash. -/
theorem resolve_of_fault?_eq_none (h : g.decls.findSome? g.fault? = none)
    (hbare : ∀ d ∈ g.decls, Expr.BareLeaves d.expr.nodes) :
    Outcome
      (fun s => (∀ d ∈ g.firsts, d.expr.clashes = false) ∧
        List.Forall₂ (fun d t => t.name = d.name ∧
          d.expr.Describes (Resolve.reference g.firsts g.firsts.length) t.type) g.firsts s.decls)
      (fun err => ∃ d, g.firsts.find? (·.expr.clashes) = some d ∧
        Resolve.Reports d.name d.expr.nodes err)
      g.resolve := by
  have hdistinct := distinct_of_fault?_eq_none h
  let ref := Resolve.reference g.firsts g.firsts.length
  have htypes : ∀ d ∈ g.firsts, Outcome
      (fun t : TypeDecl => d.expr.clashes = false ∧ t.name = d.name ∧ d.expr.Describes ref t.type)
      (Resolve.Reports d.name d.expr.nodes)
      (do return { name := d.name, type := ← Resolve.type ref d.name d.expr : TypeDecl }) := by
    intro d hd
    have hleaves := hbare d ((mem_of_distinct hdistinct).1 hd)
    refine (Resolve.type_outcome ref d.name d.expr).bind fun t ht => .ok ⟨?_, rfl, ht⟩
    exact Expr.clashes_eq_false_iff.2 (ht.noClash hleaves)
  rw [resolve, hdistinct]
  change Outcome _ _ (List.mapM _ g.firsts >>= fun ts => pure (Schema.mk ts))
  refine Outcome.bind ((Outcome.mapM htypes).mono_error ?_) fun ts hts =>
    .ok ((List.forall₂_and_left _ _).1 hts)
  rintro err ⟨before, d, after, hfirsts, hbefore, herr⟩
  refine ⟨d, List.find?_eq_some_iff_append.2 ⟨?_, before, after, hfirsts, fun d' hd' => ?_⟩, herr⟩
  · exact Bool.of_not_eq_false fun hnone => herr.not_noClash (Expr.clashes_eq_false_iff.1 hnone)
  · obtain ⟨t, hnone, -⟩ := hbefore d' hd'
    rw [hnone]
    rfl

/-- **The outcome of resolving names.**  If something is wrong with a declaration, the earliest
fault is reported.  Otherwise, if a struct anywhere in the expressions has two fields of one name,
the error names the first declaration that holds such a struct, and a name that is given twice.
Otherwise there is a schema: it declares the first occurrence of each name, in order, as the type
that the expression describes.  So a copy behind a declaration changes nothing, and a copy elsewhere
can change the order only. -/
theorem resolve_outcome {g : Grammar}
    (hbare : ∀ d ∈ g.decls, ∀ n ∈ d.expr.nodes, n.kind = .leaf → n.children = []) :
    (∀ err, g.decls.findSome? g.fault? = some err → g.resolve = .error err) ∧
    (g.decls.findSome? g.fault? = none →
      (∀ d, g.firsts.find? (·.expr.clashes) = some d → ∃ n ∈ d.expr.nodes, ∃ field,
        n.makesStruct ∧ 2 ≤ (Expr.fieldNames 0 n.children).count field ∧
        g.resolve = .error (.duplicateField d.name field)) ∧
      (g.firsts.find? (·.expr.clashes) = none → ∃ s, g.resolve = .ok s ∧
        List.Forall₂ (fun d t => t.name = d.name ∧
          d.expr.Describes (Resolve.reference g.firsts g.firsts.length) t.type)
          g.firsts s.decls)) ∧
    (∀ before d after, g.decls = before ++ after → d ∈ g.decls →
      (d ∈ before → resolve ⟨before ++ d :: after⟩ = g.resolve) ∧
      SameOutcome (fun s s' : Schema => s.decls.Perm s'.decls)
        g.resolve (resolve ⟨before ++ d :: after⟩)) := by
  refine ⟨fun err h => ?_, fun h => ?_, fun before d after hdecls hd => ⟨fun hbefore => ?_, ?_⟩⟩
  · rw [resolve, distinct_of_fault? h]
    rfl
  · have houtcome := resolve_of_fault?_eq_none h hbare
    cases hresolve : g.resolve with
    | error err =>
      rw [hresolve] at houtcome
      cases houtcome with
      | error herr =>
        obtain ⟨d, hfind, n, hn, field, hstruct, hcount, rfl⟩ := herr
        refine ⟨fun d' hfind' => ?_, fun hnone => ?_⟩
        · cases hfind.symm.trans hfind'
          exact ⟨n, hn, field, hstruct, hcount, rfl⟩
        · cases hfind.symm.trans hnone
    | ok s =>
      rw [hresolve] at houtcome
      cases houtcome with
      | ok hs =>
        refine ⟨fun d hfind => ?_, fun _ => ⟨s, rfl, hs.2⟩⟩
        exact absurd (List.find?_some hfind) (by simp [hs.1 d (List.mem_of_find?_eq_some hfind)])
  · rw [resolve_copy hbefore, ← hdecls]
  · have hlast : resolve ⟨g.decls ++ [d]⟩ = g.resolve := by
      rw [resolve_copy hd, List.append_nil]
    rw [← hlast]
    refine resolve_perm ?_
    rw [hdecls, List.append_assoc]
    exact List.Perm.append_left before List.perm_append_comm

/-- A label and the plural of an array's element, one branch deep in an alternation. -/
def bundle : Decl :=
  ⟨"Bundle", .node .alternation [.node .sequence [.leaf "Page"],
    .node .sequence [{ Expr.leaf "int32" with label := some "Pages" },
      .node .lengthArray [.leaf "Page"]]]⟩

/-- The clash is reported, unless a declaration behind it gives a name another meaning. -/
theorem resolve_outcome_bundle :
    (∃ n ∈ bundle.expr.nodes, ∃ field, n.makesStruct ∧
      2 ≤ (Expr.fieldNames 0 n.children).count field ∧
      resolve ⟨Inbox.grammar.decls ++ [bundle]⟩ = .error (.duplicateField "Bundle" field)) ∧
    resolve ⟨Inbox.grammar.decls ++ [bundle, ⟨"Stamp", .node .sequence [.leaf "int8"]⟩]⟩ =
      .error (.conflict "Stamp") := by
  refine ⟨?_, ?_⟩
  · exact ((resolve_outcome (by decide)).2.1 (by decide)).1 bundle (by decide)
  · exact (resolve_outcome (by decide)).1 _ (by decide)

end Grammar
end WireGrammar
