import Regions.Proofs.Drafting
import Regions.Proofs.Runs

/-!
# Programs from plain items

* `Item.Plain`: bodies are plain terms, and parameters have only such names;
* `shaped_ofItems`: the bodies of a program that is built from plain items have the right shape;
* `runs_of_analyze`: every function of a program whose analysis succeeds was analysed;
* `accepts`: a decidable form of the analysis succeeding on items.
-/

namespace Regions

open Std

variable {decls decls' : Declarations} {owner : Owner} {function : Function} {item : Item}
  {options : Options} {results final : ProgramFlow} {owners : List Owner} {program : Program}

/-- The body of the item is plain, and its parameters have only such names. -/
def Item.Plain (names : String → Prop) : Item → Prop
  | .forward _ | .aggregate _ _ _ => True
  | .signature _ parameters _ => ∀ p ∈ parameters, names p.name
  | .function _ parameters _ body => (∀ p ∈ parameters, names p.name) ∧ body.Plain names
  | .define _ body => body.Plain names

/-! ## Declarations that grow -/

/-- More aggregates are declared. -/
def Declarations.Extends (decls decls' : Declarations) : Prop :=
  ∀ (path : Path) (aggregate : Aggregate), decls.aggregates[path]? = some aggregate →
    decls'.aggregates[path]? = some aggregate

theorem Declarations.extends_of_declareAggregate {aggregate : Aggregate}
    (h : decls.declareAggregate aggregate = .ok decls') : decls.Extends decls' := by
  unfold Declarations.declareAggregate at h
  split at h
  · cases h
  · rename_i hnew
    cases h
    intro path found hfound
    rw [ExtTreeMap.getElem?_insert, if_neg, hfound]
    intro hcmp
    have hmem : path ∈ decls.aggregates := ExtTreeMap.mem_iff_isSome_getElem?.2 (by simp [hfound])
    exact hnew (Std.compare_eq_iff_eq.1 hcmp ▸ hmem)

theorem Declarations.functions_of_declareAggregate {aggregate : Aggregate}
    (h : decls.declareAggregate aggregate = .ok decls') : decls'.functions = decls.functions := by
  unfold Declarations.declareAggregate at h
  split at h
  · cases h
  · cases h
    rfl

theorem Declarations.Extends.memberType? (h : decls.Extends decls') {ty inner : Ty} {name : String}
    (hmember : decls.memberType? ty name = .ok (some inner)) :
    decls'.memberType? ty name = .ok (some inner) := by
  obtain ⟨path, aggregate, member, hpath, hdecl, hfind, hty⟩ :=
    Declarations.memberType?_eq_some_iff.1 hmember
  exact Declarations.memberType?_eq_some_iff.2
    ⟨path, aggregate, member, hpath, h path aggregate hdecl, hfind, hty⟩

theorem Shaped.extends (h : Shaped decls owner function) (hdecls : decls.Extends decls') :
    Shaped decls' owner function where
  spans := h.spans
  fitting := fun id node hnode =>
    (h.fitting id node hnode).mono (fun _ _ h => h) fun _ _ _ => hdecls.memberType?
  apart := h.apart

/-! ## Where functions come from -/

/-- The body that an item gives a function. -/
def Item.body? : Item → Option Term
  | .function _ _ _ body | .define _ body => some body
  | .forward _ | .aggregate _ _ _ | .signature _ _ _ => none

/-- The signature that an item declares. -/
def Item.signature? : Item → Option Signature
  | .signature name parameters returns | .function name parameters returns _ =>
    some { path := .ofString name, parameters, returns }
  | .forward _ | .aggregate _ _ _ | .define _ _ => none

theorem Item.Plain.body {names : String → Prop} (h : item.Plain names) {body : Term}
    (hbody : item.body? = some body) : body.Plain names := by
  cases item with
  | function => cases hbody; exact h.2
  | define => cases hbody; exact h
  | _ => cases hbody

theorem Item.Plain.signature {names : String → Prop} (h : item.Plain names)
    {signature : Signature} (hsignature : item.signature? = some signature) :
    ∀ p ∈ signature.parameters, names p.name := by
  cases item with
  | signature => cases hsignature; exact h
  | function => cases hsignature; exact h.1
  | _ => cases hsignature

namespace Program

/-- The owner was drafted from the body of an item, for a declared function. Since then the
declarations have only grown. -/
structure DraftedFrom (items : List Item) (decls : Declarations) (owner : Owner) : Prop where
  drafted : ∃ (before : Declarations) (signature : Signature) (body : Term),
    Function.ofTerm before owner.id signature body = .ok owner ∧ before.Extends decls ∧
      (∀ function, function ∈ before.functions → function ∈ decls.functions) ∧
      (∃ path : Path, decls.functions[path]? = some signature) ∧
      ∃ item ∈ items, item.body? = some body

theorem DraftedFrom.extends {items : List Item} (h : DraftedFrom items decls owner)
    (haggregates : decls.Extends decls') (hfunctions : ∀ (path : Path) (signature : Signature),
      decls.functions[path]? = some signature →
      decls'.functions[path]? = some signature) : DraftedFrom items decls' owner := by
  obtain ⟨before, signature, body, howner, hbefore, hknown, ⟨path, hsignature⟩, hitem⟩ :=
    h.drafted
  refine ⟨before, signature, body, howner, fun path aggregate hdecl => ?_,
    fun function hfunction => ?_, ⟨path, hfunctions path signature hsignature⟩, hitem⟩
  · exact haggregates path aggregate (hbefore path aggregate hdecl)
  · have hmem := hknown function hfunction
    rw [ExtTreeMap.mem_iff_isSome_getElem?, Option.isSome_iff_exists] at hmem ⊢
    obtain ⟨found, hfound⟩ := hmem
    exact ⟨found, hfunctions function found hfound⟩

/-- Every signature is that of an item, every owner is known by its place, and every function with a
body was drafted from an item. -/
structure Assembly.Traced (items : List Item) (assembly : Assembly) : Prop where
  signatures : ∀ (path : Path) (signature : Signature),
    assembly.declarations.functions[path]? = some signature →
      ∃ item ∈ items, item.signature? = some signature
  places : ∀ (i : Nat) (owner : Owner), assembly.program.owners[i]? = some owner →
    owner.id = ⟨i⟩
  bodies : ∀ owner ∈ assembly.program.owners, ∀ function, owner.kind = .function function →
    DraftedFrom items assembly.declarations owner

namespace Assembly

variable {assembly after : Assembly} {items : List Item}

theorem Traced.place_of_push (h : assembly.Traced items) {new : Owner}
    (hnew : new.id = assembly.nextOwner) {i : Nat}
    (howner : (assembly.program.owners.push new)[i]? = some owner) : owner.id = ⟨i⟩ := by
  rw [Array.getElem?_push] at howner
  split at howner
  · rename_i hi
    cases howner
    exact hi ▸ hnew
  · exact h.places i owner howner

theorem Traced.declareFunction (h : assembly.Traced items) {signature : Signature}
    (hdeclare : assembly.declareFunction signature = .ok after)
    (hitem : ∃ item ∈ items, item.signature? = some signature) : after.Traced items := by
  obtain ⟨decls, hdecls, hafter⟩ := except_bind_eq_ok hdeclare
  cases hafter
  unfold Declarations.declareFunction at hdecls
  split at hdecls
  · cases hdecls
  · rename_i hnew
    cases hdecls
    refine ⟨fun path found hfound => ?_, h.places, fun owner howner function hkind => ?_⟩
    · rw [ExtTreeMap.getElem?_insert] at hfound
      split at hfound
      · cases hfound
        exact hitem
      · exact h.signatures path found hfound
    · refine (h.bodies owner howner function hkind).extends (fun _ _ hdecl => hdecl)
        fun path found hfound => ?_
      -- The new signature has a path of its own.
      have hne : ¬ compare signature.path path = .eq := by
        intro hcmp
        refine hnew (ExtTreeMap.mem_iff_isSome_getElem?.2 ?_)
        rw [Std.compare_eq_iff_eq.1 hcmp, hfound]
        rfl
      rw [ExtTreeMap.getElem?_insert, if_neg hne, hfound]

theorem Traced.define (h : assembly.Traced items) {path : Path} {body : Term}
    (hdefine : assembly.define path body = .ok after)
    (hitem : ∃ item ∈ items, item.body? = some body) : after.Traced items := by
  unfold Assembly.define at hdefine
  split at hdefine
  · rename_i signature hsignature
    obtain ⟨owner, howner, hafter⟩ := except_bind_eq_ok hdefine
    cases hafter
    have hid := (yields_of_ofTerm howner).1
    refine ⟨h.signatures, fun _ _ => h.place_of_push hid, fun other hother function hkind => ?_⟩
    rcases Array.mem_push.1 hother with hother | rfl
    · exact h.bodies other hother function hkind
    · exact ⟨assembly.declarations, signature, body,
        by rw [hid]; exact howner, fun _ _ hdecl => hdecl,
        fun _ hmem => hmem, ⟨path, hsignature⟩, hitem⟩
  · cases hdefine

theorem Traced.add (h : assembly.Traced items) (hitem : item ∈ items)
    (hadd : assembly.add item = .ok after) : after.Traced items := by
  cases item with
  | forward name =>
    cases hadd
    exact h
  | aggregate layout name members =>
    obtain ⟨decls, hdecls, hafter⟩ := except_bind_eq_ok hadd
    cases hafter
    have hfunctions := Declarations.functions_of_declareAggregate hdecls
    refine ⟨fun path signature hfound => h.signatures path signature
      (by rw [← hfunctions]; exact hfound),
      fun _ _ => h.place_of_push rfl, fun owner howner function hkind => ?_⟩
    rcases Array.mem_push.1 howner with howner | rfl
    · refine (h.bodies owner howner function hkind).extends
        (Declarations.extends_of_declareAggregate hdecls) fun path signature hfound => ?_
      rw [← hfound]
      exact congrArg (·[path]?) hfunctions
    · cases hkind
  | signature name parameters returns => exact h.declareFunction hadd ⟨_, hitem, rfl⟩
  | function name parameters returns body =>
    obtain ⟨declared, hdeclared, hdefine⟩ := except_bind_eq_ok hadd
    exact (h.declareFunction hdeclared ⟨_, hitem, rfl⟩).define hdefine ⟨_, hitem, rfl⟩
  | define name body => exact h.define hadd ⟨_, hitem, rfl⟩

end Assembly

section

variable {items : List Item} {assembly : Assembly} (h : ofItems items = .ok assembly)

include h

theorem traced_ofItems : assembly.Traced items := by
  suffices hall : ∀ (rest : List Item) (before : Assembly),
    (∀ item ∈ rest, item ∈ items) →
      before.Traced items → rest.foldlM Assembly.add before = .ok assembly →
      assembly.Traced items by
    refine hall items {} (fun _ hitem => hitem) ⟨fun path signature hfound => ?_,
      by simp [Program.empty], fun owner howner => ?_⟩ h
    · change (∅ : PathMap Signature)[path]? = some signature at hfound
      simp at hfound
    · simp [Program.empty] at howner
  intro rest
  induction rest with
  | nil =>
    intro before _ hbefore hrest
    cases hrest
    exact hbefore
  | cons item rest ih =>
    intro before hitems hbefore hrest
    rw [List.foldlM_cons] at hrest
    obtain ⟨next, hnext, hrest⟩ := except_bind_eq_ok hrest
    exact ih next (fun other hother => hitems other (List.mem_cons_of_mem _ hother))
      (hbefore.add (hitems item List.mem_cons_self) hnext) hrest

/-- The owners of a program are known by their places. -/
theorem nodup_ids : (assembly.program.owners.toList.map fun owner => owner.id.index).Nodup := by
  have hids : assembly.program.owners.toList.map (fun owner => owner.id.index) =
      List.range assembly.program.owners.size := by
    refine List.ext_getElem (by simp) fun i hi _ => ?_
    simp only [List.length_map, Array.length_toList] at hi
    simp [(traced_ofItems h).places i _ (Array.getElem?_eq_getElem hi)]
  rw [hids]
  exact List.nodup_range

theorem shaped_ofItems
    (hplain : ∀ item ∈ items, item.Plain fun name => ∀ n, name ≠ blockName n)
    (howner : owner ∈ assembly.program.owners) (hkind : owner.kind = .function function) :
    Shaped assembly.declarations owner function := by
  obtain ⟨before, signature, body, hdrafted, hbefore, -, ⟨path, hsignature⟩, item,
      hitem, hbody⟩ :=
    ((traced_ofItems h).bodies owner howner function hkind).drafted
  obtain ⟨declaring, hdeclaring, hdeclares⟩ :=
    (traced_ofItems h).signatures path signature hsignature
  obtain ⟨found, hfound, hshaped⟩ := shaped_ofTerm hdrafted
    ((hplain declaring hdeclaring).signature hdeclares) ((hplain item hitem).body hbody)
  cases hkind.symm.trans hfound
  exact hshaped.extends hbefore

/-- The variables of every function of a program have sites. -/
theorem sited_ofItems (howner : owner ∈ assembly.program.owners)
    (hkind : owner.kind = .function function) (hclear : Unblurred function.parameters owner.nodes) :
    owner.Sited function := by
  obtain ⟨before, signature, body, hdrafted, -⟩ :=
    ((traced_ofItems h).bodies owner howner function hkind).drafted
  exact sited_ofTerm hdrafted hkind hclear

end

end Program

/-! ## Analysed functions -/

/-- The owner comes last, and there is no function before it. -/
def Program.Only (program : Program) (owner : Owner) : Prop :=
  program.owners.toList.getLast? = some owner ∧
    ∀ other ∈ program.owners.toList.dropLast, other.function? = none

instance : Decidable (program.Only owner) := inferInstanceAs (Decidable (_ ∧ _))

theorem Program.Only.eq_of_function (h : program.Only owner) {other : Owner}
    (hmem : other ∈ program.owners) (hkind : other.kind = .function function) :
    other = owner := by
  rw [← Array.mem_toList_iff, ← List.dropLast_append_getLast? owner h.1, List.mem_append,
    List.mem_singleton] at hmem
  refine hmem.resolve_left fun hbefore => ?_
  cases (h.2 other hbefore).symm.trans (Owner.function?_eq_some_iff.2 hkind)

namespace Flow

/-- What the analysis of a function of the program refers to. -/
def Env.ofFunction (decls : Declarations) (options : Options) (owner : Owner)
    (function : Function) : Env :=
  { declarations := decls, options, owner, scope := function.path }

theorem analyzeOwner_of_function?_eq_none (h : owner.function? = none) :
    analyzeOwner decls options results owner = .ok results := by
  unfold Owner.function? at h
  split at h
  · cases h
  · rename_i hkind
    rw [analyzeOwner, hkind]

theorem foldlM_analyzeOwner_of_function?_eq_none
    (h : ∀ owner ∈ owners, owner.function? = none) :
    owners.foldlM (analyzeOwner decls options) results = .ok results := by
  induction owners with
  | nil => rfl
  | cons owner owners ih =>
    rw [List.foldlM_cons, analyzeOwner_of_function?_eq_none (h owner List.mem_cons_self)]
    exact ih fun owner howner => h owner (List.mem_cons_of_mem _ howner)

/-- With what is known before, the analysis of the function of an owner succeeds. -/
abbrev RunsOwner (decls : Declarations) (options : Options) (owner : Owner) (function : Function)
    (context : Context) (s' : State) : Prop :=
  Runs (analyzeFunction (.ofFunction decls options owner function) function)
    (.start context owner.nodes.size) () s'

/-- The analysis of a function adds the results for its nodes, and what it has come to know. -/
theorem runs_of_analyzeOwner {next : ProgramFlow} (hkind : owner.kind = .function function)
    (h : analyzeOwner decls options results owner = .ok next) :
    ∃ s', RunsOwner decls options owner function results.context s' ∧
      next = { owners := results.owners.insert owner.id.index s'.recorded, context :=
        s'.context } := by
  rw [analyzeOwner, hkind] at h
  obtain ⟨⟨context, flow⟩, hrun, hnext⟩ := except_bind_eq_ok h
  simp only [runFunction] at hrun
  split at hrun
  · rename_i s' hstep
    cases hrun
    cases hnext
    exact ⟨s', hstep, rfl⟩
  · cases hrun

/-- What holds of the results before the first function, and is kept by the analysis of each, holds
after all of them. -/
theorem foldlM_induction {P : ProgramFlow → Prop}
    (hstep : ∀ owner ∈ owners, ∀ function, owner.kind = .function function →
      ∀ before s', P before → RunsOwner decls options owner function before.context s' →
      P { owners := before.owners.insert owner.id.index s'.recorded, context := s'.context })
    (h : P results) (hrun : owners.foldlM (analyzeOwner decls options) results = .ok final) :
    P final := by
  induction owners generalizing results with
  | nil =>
    cases hrun
    exact h
  | cons owner owners ih =>
    rw [List.foldlM_cons] at hrun
    obtain ⟨next, hnext, hrun⟩ := except_bind_eq_ok hrun
    refine ih (fun other hother => hstep other (List.mem_cons_of_mem _ hother)) ?_ hrun
    cases hkind : owner.kind with
    | aggregate layout path =>
      rw [analyzeOwner, hkind] at hnext
      cases hnext
      exact h
    | function function =>
      obtain ⟨s', hruns, rfl⟩ := runs_of_analyzeOwner hkind hnext
      exact hstep owner List.mem_cons_self function hkind results s' h hruns

theorem context_of_foldlM {P : Context → Prop}
    (hstep : ∀ owner ∈ owners, ∀ function, owner.kind = .function function →
      ∀ (context : Context) (s' : State), P context →
        RunsOwner decls options owner function context s' → P s'.context) (h : P results.context)
    (hrun : owners.foldlM (analyzeOwner decls options) results = .ok final) : P final.context :=
  foldlM_induction (P := fun results => P results.context)
    (fun owner howner function hkind before => hstep owner howner function hkind before.context) h
      hrun

/-- The analysis of one of the functions, after those before it and before those after it. -/
theorem exists_runs_of_foldlM {before after : List Owner} (hkind : owner.kind = .function function)
    (hrun : (before ++ owner :: after).foldlM (analyzeOwner decls options) results = .ok final) :
    ∃ known s', before.foldlM (analyzeOwner decls options) results = .ok known ∧
      RunsOwner decls options owner function known.context s' ∧
      after.foldlM (analyzeOwner decls options)
        { owners := known.owners.insert owner.id.index s'.recorded, context := s'.context } = .ok
        final := by
  rw [List.foldlM_append] at hrun
  obtain ⟨known, hknown, hrun⟩ := except_bind_eq_ok hrun
  rw [List.foldlM_cons] at hrun
  obtain ⟨next, hnext, hrun⟩ := except_bind_eq_ok hrun
  obtain ⟨s', hruns, rfl⟩ := runs_of_analyzeOwner hkind hnext
  exact ⟨known, s', hknown, hruns, hrun⟩

/-- Only the analysed owners get results. -/
theorem getElem?_of_foldlM {index : Nat} (hindex : index ∉ owners.map fun owner => owner.id.index)
    (hrun : owners.foldlM (analyzeOwner decls options) results = .ok final) :
    final.owners[index]? = results.owners[index]? := by
  refine foldlM_induction (P := fun found => found.owners[index]? = results.owners[index]?)
    (fun owner howner function _ before s' h _ => ?_) rfl hrun
  rw [ExtTreeMap.getElem?_insert, if_neg, h]
  intro hself
  exact hindex (List.mem_map.2 ⟨owner, howner, by simpa using hself⟩)

/-- What is recorded for a function stays, if all owners have identifiers of their own. -/
theorem recorded_of_foldlM (hids : (owners.map fun owner => owner.id.index).Nodup)
    (howner : owner ∈ owners) (hkind : owner.kind = .function function)
    (hrun : owners.foldlM (analyzeOwner decls options) results = .ok final) :
    ∃ context s', RunsOwner decls options owner function context s' ∧
      final.owners[owner.id.index]? = some s'.recorded := by
  obtain ⟨before, after, rfl⟩ := List.append_of_mem howner
  obtain ⟨known, s', -, hruns, hafter⟩ := exists_runs_of_foldlM hkind hrun
  rw [List.map_append, List.map_cons, List.nodup_append, List.nodup_cons] at hids
  refine ⟨known.context, s', hruns, ?_⟩
  rw [getElem?_of_foldlM hids.2.1.1 hafter, ExtTreeMap.getElem?_insert_self]

/-- The knowledge with which the analysis of the program comes to the owner. -/
def Precedes (program : Program) (decls : Declarations) (options : Options) (context : Context)
    (owner : Owner) : Prop :=
  ∃ before after results, program.owners.toList = before ++ owner :: after ∧
    before.foldlM (analyzeOwner decls options)
    { owners := ∅, context := .initial } = .ok results ∧
    results.context = context

theorem precedes_of_only (decls : Declarations) (options : Options) (h : program.Only owner) :
    Precedes program decls options .initial owner := by
  refine ⟨program.owners.toList.dropLast, [],
    { owners := ∅, context := .initial }, ?_, ?_, rfl⟩
  · exact (List.dropLast_append_getLast? owner h.1).symm
  · exact foldlM_analyzeOwner_of_function?_eq_none h.2

theorem foldlM_of_analyze (h : analyze program decls options = .ok results) :
    program.owners.toList.foldlM (analyzeOwner decls options)
    { owners := ∅, context := .initial } = .ok results := by
  obtain ⟨final, hfinal, hcheck⟩ := except_bind_eq_ok h
  obtain ⟨incomplete, -, hcheck⟩ := except_bind_eq_ok hcheck
  split at hcheck <;> cases hcheck
  exact hfinal

theorem runs_of_analyze (h : analyze program decls options = .ok results)
    (howner : owner ∈ program.owners) (hkind : owner.kind = .function function) :
    ∃ context s', RunsOwner decls options owner function context s' := by
  have hrun := foldlM_of_analyze h
  obtain ⟨before, after, hsplit⟩ := List.append_of_mem (Array.mem_toList_iff.2 howner)
  rw [hsplit] at hrun
  obtain ⟨known, s', -, hruns, -⟩ := exists_runs_of_foldlM hkind hrun
  exact ⟨known.context, s', hruns⟩

/-- The items give a program that the analysis accepts, with certain results. -/
def Accepts (items : List Item) (options : Options)
    (P : Program.Assembly → ProgramFlow → Prop) : Prop :=
  ∃ assembly, Program.ofItems items = .ok assembly ∧ ∃ results,
    analyze assembly.program assembly.declarations options = .ok results ∧ P assembly results

instance {items : List Item} {P : Program.Assembly → ProgramFlow → Prop}
    [∀ assembly results, Decidable (P assembly results)] :
    Decidable (Accepts items options P) := by
  delta Accepts
  infer_instance

end Flow
end Regions
