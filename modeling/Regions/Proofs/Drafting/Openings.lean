import Regions.Proofs.Bodies
import Regions.Proofs.Drafting.Steps

/-!
# Open blocks

While a body is drafted, blocks open and close. A name stands for a variable only while the block is
open in which the variable was declared. Here this is said about the nodes alone: each block was
open for the nodes of an interval, and a declaration is in scope as long as all blocks around it are
open. A name stands for its last declaration that is in scope.

* `Term.nodeCount`, `Term.openings`, `Term.mentions`: the nodes that a term makes, when its blocks
  open, and which nodes are for names;
* `InScope`: the blocks around a declaration are still open;
* `Tracks`: what a draft has done between two states;
* `Makes`, `makes_draftAt`: a step of a draft does that, and so does a term;
* `tracks_of_ofTerm`: what a name stands for in the body of a function.
-/

namespace Regions

open Std

/-- A node that declares a variable by its name, or names one. -/
structure Mention where
  node : NodeId
  name : String
  declares : Bool

namespace Term

mutual

/-- The number of nodes that a term makes. -/
def nodeCount : Term → Nat
  | .node _ | .shared _ => 0
  | .labelled _ term | .spanned _ term | .spanNext _ term => term.nodeCount
  | .after unused term => unused.nodeCount + term.nodeCount
  | .literal _ | .var _ | .newDefault _ | .breakLoop | .continueLoop => 1
  | .addressOf operand | .dereference operand | .member operand _ | .newWith operand
  | .unary _ operand | .declare _ operand => operand.nodeCount + 1
  | .index left right | .binary _ left right | .assign left right | .loop left right =>
    left.nodeCount + right.nodeCount + 1
  | .record _ fields => nodeCountFields fields + 1
  | .call _ terms | .block terms => nodeCountList terms + 1
  | .cond condition positive negative =>
    condition.nodeCount + (positive.nodeCount + nodeCountOption negative) + 1

def nodeCountList : List Term → Nat
  | [] => 0
  | term :: terms => term.nodeCount + nodeCountList terms

def nodeCountFields : List (String × Term) → Nat
  | [] => 0
  | (_, term) :: fields => term.nodeCount + nodeCountFields fields

def nodeCountOption : Option Term → Nat
  | none => 0
  | some term => term.nodeCount

end

mutual

/-- The blocks of a term that is drafted when there are `n` nodes. Each comes with the number of
nodes that were there when it was opened. -/
def openings (n : Nat) : Term → List (NodeId × Nat)
  | .node _ | .shared _ | .literal _ | .var _ | .newDefault _ | .breakLoop | .continueLoop => []
  | .labelled _ term | .spanned _ term | .spanNext _ term | .addressOf term | .dereference term
  | .member term _ | .newWith term | .unary _ term | .declare _ term => term.openings n
  | .after left right | .index left right | .binary _ left right | .assign left right
  | .loop left right => left.openings n ++ right.openings (n + left.nodeCount)
  | .record _ fields => openingsFields n fields
  | .call _ terms => openingsList n terms
  | .cond condition positive negative =>
    condition.openings n ++ (positive.openings (n + condition.nodeCount) ++
      openingsOption (n + condition.nodeCount + positive.nodeCount) negative)
  | .block terms => openingsList n terms ++ [(⟨n + nodeCountList terms⟩, n)]

def openingsList (n : Nat) : List Term → List (NodeId × Nat)
  | [] => []
  | term :: terms => term.openings n ++ openingsList (n + term.nodeCount) terms

def openingsFields (n : Nat) : List (String × Term) → List (NodeId × Nat)
  | [] => []
  | (_, term) :: fields => term.openings n ++ openingsFields (n + term.nodeCount) fields

def openingsOption (n : Nat) : Option Term → List (NodeId × Nat)
  | none => []
  | some term => term.openings n

end

mutual

/-- The nodes for names of a term that is drafted when there are `n` nodes. -/
def mentions (n : Nat) : Term → List Mention
  | .var name => [⟨⟨n⟩, name, false⟩]
  | .declare name term => term.mentions n ++ [⟨⟨n + term.nodeCount⟩, name, true⟩]
  | .node _ | .shared _ | .literal _ | .newDefault _ | .breakLoop | .continueLoop => []
  | .labelled _ term | .spanned _ term | .spanNext _ term | .addressOf term | .dereference term
  | .member term _ | .newWith term | .unary _ term => term.mentions n
  | .after left right | .index left right | .binary _ left right | .assign left right
  | .loop left right => left.mentions n ++ right.mentions (n + left.nodeCount)
  | .record _ fields => mentionsFields n fields
  | .call _ terms | .block terms => mentionsList n terms
  | .cond condition positive negative =>
    condition.mentions n ++ (positive.mentions (n + condition.nodeCount) ++
      mentionsOption (n + condition.nodeCount + positive.nodeCount) negative)

def mentionsList (n : Nat) : List Term → List Mention
  | [] => []
  | term :: terms => term.mentions n ++ mentionsList (n + term.nodeCount) terms

def mentionsFields (n : Nat) : List (String × Term) → List Mention
  | [] => []
  | (_, term) :: fields => term.mentions n ++ mentionsFields (n + term.nodeCount) fields

def mentionsOption (n : Nat) : Option Term → List Mention
  | none => []
  | some term => term.mentions n

end

end Term

/-! ## Scopes -/

section Scopes

variable {blocks blocks' : List (NodeId × Nat)} {site m n : Nat}

/-- The block is open when there are `n` nodes. -/
def OpenAt (block : NodeId × Nat) (n : Nat) : Prop := block.2 ≤ n ∧ n < block.1.index

/-- What was declared with `site` nodes there is in scope when there are `n`: the blocks around it
are still open. -/
def InScope (blocks : List (NodeId × Nat)) (site n : Nat) : Prop :=
  site < n ∧ ∀ block ∈ blocks, OpenAt block site → OpenAt block n

theorem inScope_append_iff :
    InScope (blocks ++ blocks') site n ↔ InScope blocks site n ∧ InScope blocks' site n := by
  simp only [InScope, List.mem_append, or_imp, forall_and]
  tauto

/-- Blocks that were closed before a declaration, or opened after it, do not hide it. -/
theorem inScope_of_not_openAt (h : ∀ block ∈ blocks, ¬ OpenAt block site) (hn : site < n) :
    InScope blocks site n :=
  ⟨hn, fun block hblock hopen => absurd hopen (h block hblock)⟩

/-- Once all blocks are closed, nothing changes any more. -/
theorem inScope_iff_of_closed (hclosed : ∀ block ∈ blocks, block.1.index < m) (hsite : site < m)
    (hn : m ≤ n) : InScope blocks site n ↔ InScope blocks site m := by
  have hnone : ∀ {k}, m ≤ k → InScope blocks site k →
      ∀ block ∈ blocks, ¬ OpenAt block site := by
    intro k hk hscope block hblock hopen
    have hlater := (hscope.2 block hblock hopen).2
    have := hclosed block hblock
    omega
  exact ⟨fun h => inScope_of_not_openAt (hnone hn h) hsite,
    fun h => inScope_of_not_openAt (hnone (Nat.le_refl m) h) (by omega)⟩

end Scopes

/-- When there are `n` nodes, the name stands for the last of its declarations that are in scope, or
for what it stood for in the draft `d`. -/
def Means (blocks : List (NodeId × Nat)) (mentions : List Mention) (d : Draft) (nodes : Arena Node)
    (name : String) (n : Nat) (x : Path) (ty : Ty) : Prop :=
  (∃ site, ⟨site, name, true⟩ ∈ mentions ∧ Binds [] nodes x (some site) ty ∧
      InScope blocks site.index n ∧ ∀ other, ⟨other, name, true⟩ ∈ mentions →
        InScope blocks other.index n → other.index ≤ site.index) ∨
    d.resolve? name = some (x, ty) ∧
      ∀ site, ⟨site, name, true⟩ ∈ mentions → ¬ InScope blocks site.index n

/-! ## What a draft has done -/

/-- The draft has gone on from `d` to `d'`: it has made `count` nodes, the blocks have opened and
closed, and these are the nodes for names. -/
structure Tracks (blocks : List (NodeId × Nat)) (mentions : List Mention) (count : Nat)
    (d d' : Draft) : Prop where
  size : d'.nodes.size = d.nodes.size + count
  nodes : ∀ id node, d.nodes.get? id = some node → d'.nodes.get? id = some node
  bounds : ∀ block ∈ blocks, d.nodes.size ≤ block.2 ∧ block.1.index < d'.nodes.size
  sites : ∀ mention ∈ mentions, d.nodes.size ≤ mention.node.index ∧
    mention.node.index < d'.nodes.size
  kept : ∀ name, name ∈ d.innermost.names → name ∈ d'.innermost.names
  /-- A declaration outside of the blocks has a new name. -/
  fresh : ∀ site name, ⟨site, name, true⟩ ∈ mentions →
    InScope blocks site.index d'.nodes.size →
    name ∈ d'.innermost.names ∧ name ∉ d.innermost.names
  /-- A name is declared again only inside of a block. -/
  apart : ∀ site other name, ⟨site, name, true⟩ ∈ mentions →
    ⟨other, name, true⟩ ∈ mentions → InScope blocks other.index site.index →
      ∃ block ∈ blocks, OpenAt block site.index ∧ ¬ OpenAt block other.index
  resolves : ∀ name x ty, d'.resolve? name = some (x, ty) →
    Means blocks mentions d d'.nodes name d'.nodes.size x ty
  vars : ∀ id node x, d.nodes.size ≤ id.index → d'.nodes.get? id = some node →
    node.expr = .var x →
    ∃ name, ⟨id, name, false⟩ ∈ mentions ∧
    Means blocks mentions d d'.nodes name id.index x node.ty

section Nodes

variable {nodes : Arena Node} {id : NodeId} {node : Node}

/-- A variable that is bound at a node is declared there. -/
theorem Binds.exists_declaration {parameters : List Parameter} {x : Path} {ty : Ty}
    (h : Binds parameters nodes x (some id) ty) :
    ∃ node value, nodes.get? id = some node ∧ node.expr = .declaration x value := by
  cases h with
  | declaration hnode hexpr _ => exact ⟨_, _, hnode, hexpr⟩

theorem index_lt_size (h : nodes.get? id = some node) : id.index < nodes.size := by
  rcases Nat.lt_or_ge id.index nodes.size with hlt | hge
  · exact hlt
  · rw [Arena.get?_eq_none_iff.2 hge] at h
    cases h

theorem get?_push_self (nodes : Arena Node) (new : Node) :
    (nodes.push new).get? nodes.nextId = some new := by
  rw [Arena.get?_push, if_pos rfl]

theorem get?_push_of_get? (new : Node)
    (h : nodes.get? id = some node) : (nodes.push new).get? id = some node := by
  have hne : id ≠ nodes.nextId := by
    rintro rfl
    exact Nat.lt_irrefl _ (index_lt_size h)
  rw [Arena.get?_push, if_neg hne, h]

theorem Arena.extendsTo_push (nodes : Arena Node) (new : Node) : nodes.ExtendsTo (nodes.push new) :=
  fun _ _ => get?_push_of_get? new

/-- A node that is there after a push is the new one, or was there before. -/
theorem get?_of_push {new : Node} (h : (nodes.push new).get? id = some node) :
    nodes.get? id = some node ∨ id = nodes.nextId ∧ node = new := by
  rw [Arena.get?_push] at h
  split at h
  · cases h
    exact .inr ⟨‹_›, rfl⟩
  · exact .inl h

end Nodes

namespace Tracks

variable {d d₁ d₂ : Draft} {blocks blocks' : List (NodeId × Nat)}
  {mentions mentions' : List Mention} {count count' : Nat} {expr : Expr} {ty : Ty} {x : Path}
  {name : String}

/-- Only spans and labels have changed. -/
theorem noted (d : Draft) (nextSpan : Option Span) (labels : ExtTreeMap String NodeId) :
    Tracks [] [] 0 d { d with nextSpan, labels } where
  size := rfl
  nodes := fun _ _ h => h
  bounds := by simp
  sites := by simp
  kept := fun _ h => h
  fresh := by simp
  apart := by simp
  resolves := fun _ _ _ h => .inr ⟨h, by simp⟩
  vars := fun _ _ _ hid hnode => absurd (index_lt_size hnode) (Nat.not_lt.2 hid)

/-! ### One after the other -/

section Trans

/-- For an earlier declaration, only the earlier blocks count. -/
theorem inScope_iff_of_lt (h' : Tracks blocks' mentions' count' d₁ d₂) {site n : Nat}
    (hsite : site < d₁.nodes.size) :
    InScope (blocks ++ blocks') site n ↔ InScope blocks site n := by
  refine ⟨fun hscope => (inScope_append_iff.1 hscope).1, fun hscope => ?_⟩
  refine inScope_append_iff.2
    ⟨hscope, inScope_of_not_openAt (fun block hblock hopen => ?_) hscope.1⟩
  have hopened := (h'.bounds block hblock).1
  have hbefore := hopen.1
  omega

/-- For a later declaration, only the later blocks count. -/
theorem inScope_iff_of_le (h : Tracks blocks mentions count d d₁) {site n : Nat}
    (hsite : d₁.nodes.size ≤ site) :
    InScope (blocks ++ blocks') site n ↔ InScope blocks' site n := by
  refine ⟨fun hscope => (inScope_append_iff.1 hscope).2, fun hscope => ?_⟩
  refine inScope_append_iff.2
    ⟨inScope_of_not_openAt (fun block hblock hopen => ?_) hscope.1, hscope⟩
  have hclosed := (h.bounds block hblock).2
  have hafter := hopen.2
  omega

variable (h : Tracks blocks mentions count d d₁) (h' : Tracks blocks' mentions' count' d₁ d₂)
include h h'

/-- An earlier declaration that is in scope later was in scope in the middle. -/
theorem inScope_iff_of_lt_of_le {site n : Nat} (hsite : site < d₁.nodes.size)
    (hn : d₁.nodes.size ≤ n) :
    InScope (blocks ++ blocks') site n ↔ InScope blocks site d₁.nodes.size :=
  (inScope_iff_of_lt h' hsite).trans
    (inScope_iff_of_closed (fun block hblock => (h.bounds block hblock).2) hsite hn)

/-- What a name stands for while the first part goes on. -/
theorem means_left {n : Nat} (hn : n ≤ d₁.nodes.size)
    (hmeans : Means blocks mentions d d₁.nodes name n x ty) :
    Means (blocks ++ blocks') (mentions ++ mentions') d d₂.nodes name n x ty := by
  -- The later declarations are not made yet.
  have hlast : ∀ other, ⟨other, name, true⟩ ∈ mentions ++ mentions' →
      InScope (blocks ++ blocks') other.index n →
        ⟨other, name, true⟩ ∈ mentions ∧ InScope blocks other.index n := by
    intro other hother hscope
    have hlt := hscope.1
    rcases List.mem_append.1 hother with hother | hother
    · exact ⟨hother, (inScope_append_iff.1 hscope).1⟩
    · have := (h'.sites _ hother).1
      dsimp only at this
      omega
  rcases hmeans with ⟨site, hsite, hbinds, hscope, hmax⟩ | ⟨hresolve, hnone⟩
  · refine .inl ⟨site, List.mem_append_left _ hsite, hbinds.mono h'.nodes, ?_,
      fun other hother hother' => ?_⟩
    · exact (inScope_iff_of_lt h' (h.sites _ hsite).2).2 hscope
    · exact hmax other (hlast other hother hother').1 (hlast other hother hother').2
  · refine .inr ⟨hresolve, fun other hother hother' => ?_⟩
    exact hnone other (hlast other hother hother').1 (hlast other hother hother').2

/-- What a name stands for while the second part goes on. -/
theorem means_right {n : Nat} (hn : d₁.nodes.size ≤ n)
    (hmeans : Means blocks' mentions' d₁ d₂.nodes name n x ty) :
    Means (blocks ++ blocks') (mentions ++ mentions') d d₂.nodes name n x ty := by
  -- The earlier declarations in scope are those that were in scope in the middle.
  have hearlier : ∀ other, ⟨other, name, true⟩ ∈ mentions →
      (InScope (blocks ++ blocks') other.index n ↔ InScope blocks other.index d₁.nodes.size) :=
    fun other hother => inScope_iff_of_lt_of_le h h' (h.sites _ hother).2 hn
  have hlater : ∀ other, ⟨other, name, true⟩ ∈ mentions' →
      (InScope (blocks ++ blocks') other.index n ↔ InScope blocks' other.index n) :=
    fun other hother => inScope_iff_of_le h (h'.sites _ hother).1
  rcases hmeans with ⟨site, hsite, hbinds, hscope, hmax⟩ | ⟨hresolve, hnone⟩
  · refine .inl ⟨site, List.mem_append_right _ hsite, hbinds, (hlater site hsite).2 hscope,
      fun other hother hother' => ?_⟩
    rcases List.mem_append.1 hother with hother | hother
    · have hbefore := (h.sites _ hother).2
      have hafter := (h'.sites _ hsite).1
      exact Nat.le_of_lt (Nat.lt_of_lt_of_le hbefore hafter)
    · exact hmax other hother ((hlater other hother).1 hother')
  rcases h.resolves name x ty hresolve
    with ⟨site, hsite, hbinds, hscope, hmax⟩ | ⟨hresolve, hnone'⟩
  · refine .inl
      ⟨site, List.mem_append_left _ hsite, hbinds.mono h'.nodes, (hearlier site hsite).2 hscope,
      fun other hother hother' => ?_⟩
    rcases List.mem_append.1 hother with hother | hother
    · exact hmax other hother ((hearlier other hother).1 hother')
    · exact absurd ((hlater other hother).1 hother') (hnone other hother)
  · refine .inr ⟨hresolve, fun other hother hother' => ?_⟩
    rcases List.mem_append.1 hother with hother | hother
    · exact hnone' other hother ((hearlier other hother).1 hother')
    · exact hnone other hother ((hlater other hother).1 hother')

theorem trans : Tracks (blocks ++ blocks') (mentions ++ mentions') (count + count') d d₂ := by
  have hsize := h.size
  have hsize' := h'.size
  constructor
  case size => omega
  case nodes => exact fun id node hnode => h'.nodes id node (h.nodes id node hnode)
  case bounds =>
    intro block hblock
    rcases List.mem_append.1 hblock with hblock | hblock
    · have := h.bounds block hblock
      omega
    · have := h'.bounds block hblock
      omega
  case sites =>
    intro mention hmention
    rcases List.mem_append.1 hmention with hmention | hmention
    · have := h.sites mention hmention
      omega
    · have := h'.sites mention hmention
      omega
  case kept => exact fun name hname => h'.kept name (h.kept name hname)
  case fresh =>
    intro site name hsite hscope
    rcases List.mem_append.1 hsite with hsite | hsite
    · rw [inScope_iff_of_lt_of_le h h' (h.sites _ hsite).2 (by omega)] at hscope
      obtain ⟨hin, hnew⟩ := h.fresh site name hsite hscope
      exact ⟨h'.kept name hin, hnew⟩
    · rw [inScope_iff_of_le h (h'.sites _ hsite).1] at hscope
      obtain ⟨hin, hnew⟩ := h'.fresh site name hsite hscope
      exact ⟨hin, fun hold => hnew (h.kept name hold)⟩
  case apart =>
    intro site other name hsite hother hscope
    have hlt := hscope.1
    rcases List.mem_append.1 hsite with hsite | hsite
    · have hbefore := (h.sites _ hsite).2
      dsimp only at hbefore
      rcases List.mem_append.1 hother with hother | hother
      · obtain ⟨block, hblock, hopen⟩ :=
          h.apart site other name hsite hother (inScope_append_iff.1 hscope).1
        exact ⟨block, List.mem_append_left _ hblock, hopen⟩
      · have hafter := (h'.sites _ hother).1
        dsimp only at hafter
        omega
    · have hafter := (h'.sites _ hsite).1
      dsimp only at hafter
      rcases List.mem_append.1 hother with hother | hother
      · -- The name was known in the middle, so it is declared again in a block.
        have hbefore := (h.sites _ hother).2
        dsimp only at hbefore
        rw [inScope_iff_of_lt_of_le h h' hbefore hafter] at hscope
        have hknown := (h.fresh other name hother hscope).1
        by_contra hnone
        push Not at hnone
        have hunopened : ∀ block ∈ blocks', ¬ OpenAt block site.index := by
          intro block hblock hopen
          have hopened := (h'.bounds block hblock).1
          have hin := (hnone block (List.mem_append_right _ hblock) hopen).1
          omega
        have hnew := inScope_of_not_openAt hunopened (h'.sites _ hsite).2
        exact (h'.fresh site name hsite hnew).2 hknown
      · obtain ⟨block, hblock, hopen⟩ :=
          h'.apart site other name hsite hother (inScope_append_iff.1 hscope).2
        exact ⟨block, List.mem_append_right _ hblock, hopen⟩
  case resolves =>
    exact fun name x ty hresolve => means_right h h' (by omega) (h'.resolves name x ty hresolve)
  case vars =>
    intro id node x hid hnode hexpr
    by_cases hlt : id.index < d₁.nodes.size
    · -- The node was there in the middle.
      obtain ⟨old, hold⟩ : ∃ old, d₁.nodes.get? id = some old := by
        rw [← Option.isSome_iff_exists, Option.isSome_iff_ne_none, ne_eq, Arena.get?_eq_none_iff]
        exact Nat.not_le.2 hlt
      cases (h'.nodes id old hold).symm.trans hnode
      obtain ⟨name, hname, hmeans⟩ := h.vars id node x hid hold hexpr
      exact ⟨name, List.mem_append_left _ hname, means_left h h' (Nat.le_of_lt hlt) hmeans⟩
    · have hge := Nat.not_lt.1 hlt
      obtain ⟨name, hname, hmeans⟩ := h'.vars id node x hge hnode hexpr
      exact ⟨name, List.mem_append_right _ hname, means_right h h' hge hmeans⟩

end Trans

/-! ### One node -/

/-- A node has been added that is that of no variable. -/
theorem added (span : Span) (hnone : expr.Anonymous) :
    Tracks [] [] 1 d { d with nodes := d.nodes.push ⟨expr, ty, span⟩, nextSpan := none } where
  size := Arena.size_push ..
  nodes := Arena.extendsTo_push _ _
  bounds := by simp
  sites := by simp
  kept := fun _ h => h
  fresh := by simp
  apart := by simp
  resolves := fun _ _ _ h => .inr ⟨h, by simp⟩
  vars := by
    intro id node x hid hnode hexpr
    rcases get?_of_push hnode with hold | ⟨-, rfl⟩
    · exact absurd (index_lt_size hold) (Nat.not_lt.2 hid)
    · cases hexpr
      exact hnone.elim

theorem named (span : Span) (hresolve : d.resolve? name = some (x, ty)) :
    Tracks [] [⟨d.nodes.nextId, name, false⟩] 1 d
      { d with nodes := d.nodes.push ⟨.var x, ty, span⟩, nextSpan := none } where
  size := Arena.size_push ..
  nodes := Arena.extendsTo_push _ _
  bounds := by simp
  sites := by simp [Arena.nextId, Arena.size_push]
  kept := fun _ h => h
  fresh := by simp
  apart := by simp
  resolves := fun _ _ _ h => .inr ⟨h, by simp⟩
  vars := by
    intro id node y hid hnode hexpr
    rcases get?_of_push hnode with hold | ⟨rfl, rfl⟩
    · exact absurd (index_lt_size hold) (Nat.not_lt.2 hid)
    · cases hexpr
      exact ⟨name, List.mem_singleton_self _, .inr ⟨hresolve, by simp⟩⟩

theorem declared {value : NodeId} {valueNode : Node} (span : Span)
    (hvalue : d.nodes.get? value = some valueNode) (hnew : name ∉ d.innermost.names) :
    Tracks [] [⟨d.nodes.nextId, name, true⟩] 1 d { d with
      nodes := d.nodes.push ⟨.declaration x value, .void, span⟩
      innermost := { d.innermost with names := d.innermost.names.insert name (x, valueNode.ty) }
      nextSpan := none } where
  size := Arena.size_push ..
  nodes := Arena.extendsTo_push _ _
  bounds := by simp
  sites := by simp [Arena.nextId, Arena.size_push]
  kept := fun _ h => ExtTreeMap.mem_insert.2 (.inr h)
  fresh := by
    intro site other hother _
    obtain ⟨rfl, rfl⟩ : site = d.nodes.nextId ∧ other = name := by simpa using hother
    exact ⟨ExtTreeMap.mem_insert_self, hnew⟩
  apart := by
    intro site other name' hsite hother hscope
    obtain ⟨rfl, -⟩ : site = d.nodes.nextId ∧ name' = name := by simpa using hsite
    obtain ⟨rfl, -⟩ : other = d.nodes.nextId ∧ name' = name := by simpa using hother
    exact absurd hscope.1 (Nat.lt_irrefl _)
  resolves := by
    intro other y ty hresolve
    simp only [Draft.resolve?, List.findSome?_cons, ExtTreeMap.getElem?_insert,
      Std.compare_eq_iff_eq] at hresolve
    by_cases hname : name = other
    · subst hname
      rw [if_pos rfl] at hresolve
      cases hresolve
      refine .inl ⟨d.nodes.nextId, List.mem_singleton_self _, ?_, ⟨?_, by simp⟩, by simp⟩
      · exact .declaration (get?_push_self _ _) rfl (get?_push_of_get? _ hvalue)
      · simp [Arena.nextId, Arena.size_push]
    · rw [if_neg hname] at hresolve
      exact .inr ⟨hresolve, by simp [Ne.symm hname]⟩
  vars := by
    intro id node y hid hnode hexpr
    rcases get?_of_push hnode with hold | ⟨-, rfl⟩
    · exact absurd (index_lt_size hold) (Nat.not_lt.2 hid)
    · cases hexpr

/-- A new scope has no names of its own. -/
theorem resolve?_opened (d : Draft) (name : String) : d.opened.resolve? name = d.resolve? name := by
  simp [Draft.resolve?, Draft.opened]

theorem enclosed (span : Span) (statements : List NodeId)
    (h : Tracks blocks mentions count d.opened d₁) :
    Tracks (blocks ++ [(⟨d.nodes.size + count⟩, d.nodes.size)]) mentions
    (count + 1) d { d₁ with
      nodes := d₁.nodes.push ⟨.block statements, ty, span⟩
      innermost := d.innermost
      enclosing := d.enclosing
      nextSpan := none } := by
  have hsize : d₁.nodes.size = d.nodes.size + count := h.size
  have hpush := Arena.size_push d₁.nodes ⟨.block statements, ty, span⟩
  have hgrown : d₁.nodes.size ≤ (d₁.nodes.push ⟨.block statements, ty, span⟩).size :=
    by omega
  have hsites : ∀ mention ∈ mentions, d.nodes.size ≤ mention.node.index ∧
      mention.node.index < d₁.nodes.size := h.sites
  have hopen : ∀ {n}, d.nodes.size ≤ n → n < d₁.nodes.size →
      OpenAt (⟨d.nodes.size + count⟩, d.nodes.size) n := fun hle hlt => ⟨hle, hsize ▸ hlt⟩
  -- What is declared in the block is in scope only inside.
  have hhidden : ∀ {mention n}, mention ∈ mentions → d₁.nodes.size ≤ n →
      ¬ InScope (blocks ++ [(⟨d.nodes.size + count⟩, d.nodes.size)]) mention.node.index n := by
    intro mention n hmention hn hscope
    obtain ⟨hle, hlt⟩ := hsites mention hmention
    have hstill :=
      (hscope.2 _ (List.mem_append_right _ (List.mem_singleton_self _)) (hopen hle hlt)).2
    dsimp only at hstill
    omega
  constructor
  case size =>
    dsimp only
    omega
  case nodes => exact fun id node hnode => get?_push_of_get? _ (h.nodes id node hnode)
  case bounds =>
    simp only [List.mem_append, List.mem_singleton]
    rintro block (hblock | rfl)
    · have hinner : d.nodes.size ≤ block.2 ∧ block.1.index < d₁.nodes.size :=
        h.bounds block hblock
      omega
    · dsimp only
      omega
  case sites =>
    intro mention hmention
    have := hsites mention hmention
    dsimp only
    omega
  case kept => exact fun _ hname => hname
  case fresh => exact fun site name hsite hscope => absurd hscope (hhidden hsite hgrown)
  case apart =>
    intro site other name hsite hother hscope
    obtain ⟨block, hblock, hapart⟩ :=
      h.apart site other name hsite hother (inScope_append_iff.1 hscope).1
    exact ⟨block, List.mem_append_left _ hblock, hapart⟩
  case resolves =>
    intro name x ty hresolve
    exact .inr ⟨hresolve, fun site hsite => hhidden hsite hgrown⟩
  case vars =>
    intro id node x hid hnode hexpr
    rcases get?_of_push hnode with hold | ⟨-, rfl⟩
    · have hlt := index_lt_size hold
      obtain ⟨name, hname, hmeans⟩ := h.vars id node x hid hold hexpr
      refine ⟨name, hname, ?_⟩
      rcases hmeans with ⟨site, hsite, hbinds, hscope, hmax⟩ | ⟨hresolve, hnone⟩
      · refine .inl
            ⟨site, hsite, hbinds.mono (Arena.extendsTo_push _ _), ?_, fun other hother hother' =>
          hmax other hother (inScope_append_iff.1 hother').1⟩
        exact inScope_append_iff.2 ⟨hscope, hscope.1, by
          intro block hblock _
          obtain rfl := List.mem_singleton.1 hblock
          exact hopen hid hlt⟩
      · rw [resolve?_opened] at hresolve
        exact .inr ⟨hresolve, fun other hother hother' =>
          hnone other hother (inScope_append_iff.1 hother').1⟩
    · cases hexpr

end Tracks

/-! ## What the steps of a draft do -/

section Steps

variable {α β : Type} {decls : Declarations} {blocks blocks' : Nat → List (NodeId × Nat)}
  {mentions mentions' : Nat → List Mention} {count count' : Nat} {expr : Expr}

/-- The step only adds what may be drafted. It makes so many nodes, opens and closes these blocks,
and makes these nodes for names. -/
def Makes (decls : Declarations) (blocks : Nat → List (NodeId × Nat))
    (mentions : Nat → List Mention) (count : Nat) (step : DraftM α) : Prop :=
  ∀ d a d', Yields step d a d' → Drafted decls d d' ∧
    Tracks (blocks d.nodes.size) (mentions d.nodes.size) count d d'

namespace Makes

theorem bind {step : DraftM α} {next : α → DraftM β}
    (h : Makes decls blocks mentions count step)
    (h' : ∀ a, Makes decls blocks' mentions' count' (next a)) :
    Makes decls (fun n => blocks n ++ blocks' (n + count))
      (fun n => mentions n ++ mentions' (n + count)) (count + count') (step >>= next) := by
  intro d b d' hrun
  obtain ⟨a, d₁, hstep, hnext⟩ := yields_bind_iff.1 hrun
  obtain ⟨hdrafted, hfirst⟩ := h d a d₁ hstep
  obtain ⟨hdrafted', hsecond⟩ := h' a d₁ b d' hnext
  rw [hfirst.size] at hsecond
  exact ⟨hdrafted.trans hdrafted', hfirst.trans hsecond⟩

theorem of_eq {step : DraftM α} (h : ∀ d a d', Yields step d a d' → d' = d) :
    Makes decls (fun _ => []) (fun _ => []) 0 step := by
  intro d a d' hrun
  rw [h d a d' hrun]
  exact ⟨.refl d, .noted d d.nextSpan d.labels⟩

theorem pure (a : α) : Makes decls (fun _ => []) (fun _ => []) 0 (pure a) :=
  of_eq fun _ _ _ h => (yields_pure_iff.1 h).2.symm

/-- Steps that add one node, which is that of no variable. -/
theorem of_pushes {step : DraftM NodeId} (h : Pushes decls expr step) (hnone : expr.Anonymous) :
    Makes decls (fun _ => []) (fun _ => []) 1 step := by
  intro d id d' hrun
  obtain ⟨ty, hpush, htyped⟩ := h d id d' hrun
  obtain ⟨-, span, rfl⟩ := DraftM.yields_push hpush
  exact ⟨(Drafted.refl d).added span (Draft.allows_of_typed htyped hnone), .added span hnone⟩

theorem var (name : String) :
    Makes decls (fun _ => []) (fun n => [⟨⟨n⟩, name, false⟩]) 1 (DraftM.var name) := by
  intro d id d' h
  obtain ⟨x, ty, hresolve, hpush⟩ := DraftM.yields_var h
  obtain ⟨-, span, rfl⟩ := DraftM.yields_push hpush
  exact ⟨(Drafted.refl d).added span ⟨name, hresolve⟩, .named span hresolve⟩

theorem declare (name : String) (value : NodeId) :
    Makes decls (fun _ => []) (fun n => [⟨⟨n⟩, name, true⟩]) 1
      (DraftM.declare name value) := by
  intro d id d' h
  obtain ⟨valueNode, hvalue, hnew, hpush⟩ := DraftM.yields_declare h
  obtain ⟨-, span, rfl⟩ := DraftM.yields_push hpush
  exact ⟨(Drafted.refl d).declared span hvalue hnew, .declared span hvalue hnew⟩

theorem block {statements : DraftM (List NodeId)}
    (h : Makes decls blocks mentions count statements) :
    Makes decls (fun n => blocks n ++ [(⟨n + count⟩, n)]) mentions (count + 1)
    (DraftM.block statements) := by
  intro d id d' hrun
  obtain ⟨ids, d₁, ty, hstatements, htype, hpush⟩ := yields_block hrun
  obtain ⟨-, span, rfl⟩ := DraftM.yields_push hpush
  obtain ⟨hdrafted, htracks⟩ := h _ _ _ hstatements
  have hinner := ((Drafted.refl d).enclosed hdrafted).noted d.nextSpan d₁.labels
  exact ⟨hinner.added span htype, htracks.enclosed span ids⟩

theorem setSpan (span : Span) :
    Makes decls (fun _ => []) (fun _ => []) 0 (DraftM.setSpan span) := by
  intro d a d' h
  obtain rfl := DraftM.yields_setSpan_iff.1 h
  exact ⟨(Drafted.refl d).noted (some span) d.labels, .noted d (some span) d.labels⟩

theorem setLabel (label : String) (id : NodeId) :
    Makes decls (fun _ => []) (fun _ => []) 0 (DraftM.setLabel label id) := by
  intro d a d' h
  obtain rfl := yields_modify_iff.1 h
  exact ⟨(Drafted.refl d).noted d.nextSpan _, .noted d d.nextSpan _⟩

theorem emit {step : DraftM NodeId} (h : Makes decls blocks mentions count step)
    (span? : Option Span) :
    Makes decls blocks mentions count (Term.emit span? step) := by
  cases span? with
  | none => exact h
  | some span => simpa [Term.emit] using (setSpan span).bind fun _ => h

/-- The result of a step is put into a list, a pair or the like. -/
theorem map {step : DraftM α} (f : α → β) (h : Makes decls blocks mentions count step) :
    Makes decls blocks mentions count (step >>= fun a => Pure.pure (f a)) := by
  simpa using h.bind fun a => pure (f a)

theorem node {first : DraftM α} {next : α → DraftM NodeId}
    (h : Makes decls blocks mentions count first)
    (hnext : ∀ a, Makes decls (fun _ => []) (fun _ => []) 1 (next a)) :
    Makes decls blocks mentions (count + 1) (first >>= next) := by
  simpa using h.bind hnext

theorem node₂ {first : DraftM α} {second : DraftM β} {next : α → β → DraftM NodeId}
    (h : Makes decls blocks mentions count first) (h' : Makes decls blocks' mentions' count' second)
    (hnext : ∀ a b, Makes decls (fun _ => []) (fun _ => []) 1 (next a b)) :
    Makes decls (fun n => blocks n ++ blocks' (n + count))
      (fun n => mentions n ++ mentions' (n + count)) (count + count' + 1)
      (first >>= fun a => second >>= next a) := by
  simpa [Nat.add_assoc] using h.bind fun a => h'.node (hnext a)

end Makes

end Steps

/-! ## Terms -/

section Terms

variable (decls : Declarations)

mutual

/-- Drafting a term makes its nodes, and opens and closes its blocks. -/
theorem makes_draftAt (term : Term) (span? : Option Span) :
    Makes decls (fun n => term.openings n) (fun n => term.mentions n) term.nodeCount
      (term.draftAt decls span?) := by
  have hnode : ∀ {expr : Expr} {step : DraftM NodeId}, Pushes decls expr step →
    expr.Anonymous → Makes decls (fun _ => []) (fun _ => []) 1 (Term.emit span? step) :=
    fun hpushes hnone => (Makes.of_pushes hpushes hnone).emit span?
  -- In each case: the operands, then the node itself.
  cases term with
  | literal value => exact hnode (.literal decls value) trivial
  | var name => exact (Makes.var name).emit span?
  | addressOf target =>
    exact (makes_draftAt target none).node fun id => hnode (.addressOf decls id) trivial
  | dereference target =>
    exact (makes_draftAt target none).node fun id => hnode (.dereference decls id) trivial
  | member target name =>
    exact (makes_draftAt target none).node fun id => hnode (.memberAccess decls id name) trivial
  | index target subscript =>
    exact (makes_draftAt target none).node₂ (makes_draftAt subscript none) fun id id' =>
      hnode (.index decls id id') trivial
  | newDefault ty => exact hnode (.newDefault decls ty) trivial
  | newWith initializer =>
    exact (makes_draftAt initializer none).node fun id => hnode (.newWith decls id) trivial
  | record ty fields =>
    exact (makes_draftFields fields).node fun ids => hnode (.structLiteral decls ty ids) trivial
  | unary op operand =>
    exact (makes_draftAt operand none).node fun id => hnode (.unary decls op id) trivial
  | binary op lhs rhs =>
    exact (makes_draftAt lhs none).node₂ (makes_draftAt rhs none) fun id id' =>
      hnode (.binary decls op id id') trivial
  | call function arguments =>
    exact (makes_draftList arguments).node fun ids =>
      hnode (.call decls (.ofString function) ids) trivial
  | declare name value =>
    simpa [Term.draftAt, Term.openings, Term.mentions, Term.nodeCount] using
      (makes_draftAt value none).bind fun id => (Makes.declare name id).emit span?
  | assign target value =>
    exact (makes_draftAt target none).node₂ (makes_draftAt value none) fun id id' =>
      hnode (.assign decls id id') trivial
  | cond condition positive negative =>
    have hnegative := fun id id' =>
      (makes_draftOption negative).bind fun id? => hnode (.cond decls id id' id?) trivial
    have hbranches := fun id => (makes_draftAt positive none).bind fun id' => hnegative id id'
    simpa [Term.draftAt, Term.openings, Term.mentions, Term.nodeCount, Nat.add_assoc] using
      (makes_draftAt condition none).bind hbranches
  | loop condition body =>
    exact (makes_draftAt condition none).node₂ (makes_draftAt body none) fun id id' =>
      hnode (.loop decls id id') trivial
  | breakLoop => exact hnode (.breakLoop decls) trivial
  | continueLoop => exact hnode (.continueLoop decls) trivial
  | block statements => exact (makes_draftList statements).block.emit span?
  | node id => exact .pure id
  | labelled label term =>
    simpa [Term.draftAt, Term.openings, Term.mentions, Term.nodeCount] using
      (makes_draftAt term none).bind fun id => (Makes.setLabel label id).map fun _ => id
  | shared label => exact .of_eq fun _ _ _ => DraftM.eq_of_yields_labelled
  | after unused term =>
    exact (makes_draftAt unused none).bind fun _ => makes_draftAt term none
  | spanned span term => exact makes_draftAt term (some span)
  | spanNext span term =>
    simpa [Term.draftAt, Term.openings, Term.mentions, Term.nodeCount] using
      (Makes.setSpan span).bind fun _ => makes_draftAt term none

theorem makes_draftList (terms : List Term) :
    Makes decls (fun n => Term.openingsList n terms) (fun n => Term.mentionsList n terms)
      (Term.nodeCountList terms) (Term.draftList decls terms) := by
  cases terms with
  | nil => exact .pure []
  | cons term terms =>
    exact (makes_draftAt term none).bind fun id => (makes_draftList terms).map (id :: ·)

theorem makes_draftFields (fields : List (String × Term)) :
    Makes decls (fun n => Term.openingsFields n fields) (fun n => Term.mentionsFields n fields)
      (Term.nodeCountFields fields) (Term.draftFields decls fields) := by
  cases fields with
  | nil => exact .pure []
  | cons field fields =>
    exact (makes_draftAt field.2 none).bind fun id =>
      (makes_draftFields fields).map ((field.1, id) :: ·)

theorem makes_draftOption (term? : Option Term) :
    Makes decls (fun n => Term.openingsOption n term?) (fun n => Term.mentionsOption n term?)
      (Term.nodeCountOption term?) (Term.draftOption decls term?) := by
  cases term? with
  | none => exact .pure none
  | some term => exact (makes_draftAt term none).map some

end

end Terms

/-! ## Functions -/

section Functions

variable {decls : Declarations} {ownerId : OwnerId} {signature : Signature} {body : Term}
  {owner : Owner} {function : Function}

/-- The body of a function is drafted in a scope that has its parameters. -/
theorem tracks_of_ofTerm (h : Function.ofTerm decls ownerId signature body = .ok owner)
    (hkind : owner.kind = .function function) :
    ∃ d d', owner.nodes = d'.nodes ∧ d.nodes.size = 0 ∧
      Tracks (body.openings 0) (body.mentions 0) body.nodeCount d d' ∧
      ∀ name x ty, d.resolve? name = some (x, ty) →
        ∃ p ∈ function.parameters, p.name = name ∧ p.path = x ∧ p.ty = ty := by
  obtain ⟨-, found, d, d', hfound, hnodes, -, -, hbound, hbody, -⟩ := yields_of_ofTerm h
  cases hkind.symm.trans hfound
  have htracks := (makes_draftAt decls body none d _ d' hbody).2
  obtain ⟨-, -, names, rfl, -, hnames⟩ := yields_bindParameters hbound
  refine ⟨_, d', hnodes, rfl, htracks, fun name x ty hresolve => ?_⟩
  have hname : names[name]? = some (x, ty) := by
    simpa [Draft.resolve?, Draft.start] using hresolve
  rcases hnames name (x, ty) hname with hstart | ⟨p, hp, hpname, heq⟩
  · simp [Draft.start] at hstart
  · obtain ⟨hpath, hty⟩ := Prod.mk.inj heq
    exact ⟨p, hp, hpname, hpath, hty⟩

/-- A variable that the function names is a parameter, or it was declared before, and all blocks
around its declaration are still open. -/
theorem binds_of_ofTerm (h : Function.ofTerm decls ownerId signature body = .ok owner)
    (hkind : owner.kind = .function function) {id : NodeId} {node : Node} {x : Path}
    (hnode : owner.nodes.get? id = some node) (hexpr : node.expr = .var x) :
    (∃ p ∈ function.parameters, p.path = x ∧ p.ty = node.ty) ∨ ∃ site : NodeId,
      Binds [] owner.nodes x (some site) node.ty ∧ InScope
      (body.openings 0) site.index id.index := by
  obtain ⟨d, d', hnodes, hempty, htracks, hparameters⟩ := tracks_of_ofTerm h hkind
  rw [hnodes] at hnode ⊢
  obtain ⟨name, -, ⟨site, -, hbinds, hscope, -⟩ | ⟨hresolve, -⟩⟩ :=
    htracks.vars id node x (by omega) hnode hexpr
  · exact .inr ⟨site, hbinds, hscope⟩
  · obtain ⟨p, hp, -, hpath⟩ := hparameters name x node.ty hresolve
    exact .inl ⟨p, hp, hpath⟩

end Functions

end Regions
