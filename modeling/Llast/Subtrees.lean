import Mathlib.Data.List.Nodup
import Mathlib.Data.List.Perm.Basic
import Llast.Traversal

/-!
# Subtrees and their callbacks

Every kind of node is walked in the same way: it opens with some callbacks, walks
its children, and closes with some callbacks.  With `children`, `opening` and
`closing` of a node, what holds of the sites of every tree needs one induction step
and not one for each kind of node.
-/

namespace Llast

/-- The children the walker visits, each with its number. -/
def Expr.children : Expr → List (Expr × Nat)
  | .binary lValue _ rValue => [(lValue, 0), (rValue, 1)]
  | .assignVariable _ valueExpr => [(valueExpr, 0)]
  | .return valueExpr => [(valueExpr, 0)]
  | .block _ expressions => expressions.zipIdx
  | .conditional condition truePart falsePart =>
      (condition, 0) ::
        (if truePart.isNull then [] else [(truePart, 1)]) ++
          (if falsePart.isNull then [] else [(falsePart, 2)])
  | _ => []

/-- The callbacks of a node before its children, after `visitingNode`. -/
def Expr.opening : Expr → List Callback
  | .null => []
  | .literalInt32 value => [.visitLiteralInt32 value]
  | .literalFloat value => [.visitLiteralFloat value]
  | .binary lValue operation rValue =>
      [.visitingBinary lValue operation rValue]
  | .variableRef var => [.visitVariableRef var]
  | .assignVariable var valueExpr => [.visitingAssignVariable var valueExpr]
  | .return valueExpr => [.visitingReturn valueExpr]
  | .block scope expressions => [.visitingBlock scope expressions]
  | .conditional condition truePart falsePart =>
      [.visitingConditional condition truePart falsePart]

/-- The callbacks of a node after its children, before `visitedNode`. -/
def Expr.closing : Expr → List Callback
  | .binary lValue operation rValue =>
      [.visitedBinary lValue operation rValue]
  | .assignVariable var valueExpr => [.visitedAssignVariable var valueExpr]
  | .return valueExpr => [.visitedReturn valueExpr]
  | .block scope expressions => [.visitedBlock scope expressions]
  | .conditional condition truePart falsePart =>
      [.visitedConditional condition truePart falsePart]
  | _ => []

/-- The sites of the children of a node. -/
def Expr.innerSites (expr : Expr) (path : Path) : List Site :=
  expr.children.flatMap fun child =>
    child.1.sites (⟨.expr expr, child.2⟩ :: path)

private theorem childSites_eq_flatMap (expressions : List Expr) (node : Node)
    (path : Path) (first : Nat) :
    childSites expressions node path first =
      (expressions.zipIdx first).flatMap fun child =>
        child.1.sites (⟨node, child.2⟩ :: path) := by
  induction expressions generalizing first with
  | nil => rfl
  | cons expr rest ih =>
      rw [childSites, ih, List.zipIdx_cons, List.flatMap_cons]

/-- Every node is walked in the same way. -/
theorem Expr.sites_eq {expr : Expr} (present : expr.isNull = false)
    (path : Path) :
    expr.sites path =
      bracket path (.expr expr) expr.opening (expr.innerSites path)
        expr.closing := by
  cases expr with
  | null => cases present
  | literalInt32 value => rfl
  | literalFloat value => rfl
  | variableRef var => rfl
  | binary lValue operation rValue =>
      rw [Expr.sites]
      simp [Expr.innerSites, Expr.children, Expr.opening, Expr.closing]
  | assignVariable var valueExpr =>
      rw [Expr.sites]
      simp [Expr.innerSites, Expr.children, Expr.opening, Expr.closing]
  | «return» valueExpr =>
      rw [Expr.sites]
      simp [Expr.innerSites, Expr.children, Expr.opening, Expr.closing]
  | block scope expressions =>
      rw [Expr.sites, childSites_eq_flatMap]
      rfl
  | conditional condition truePart falsePart =>
      rw [Expr.sites]
      cases noTrue : truePart.isNull <;> cases noFalse : falsePart.isNull <;>
        simp [Expr.innerSites, Expr.children, Expr.opening, Expr.closing,
          noTrue, noFalse]

/-- Induction over trees where all kinds of nodes are treated alike. -/
theorem Expr.children_induction {motive : Expr → Prop}
    (step : ∀ expr, (∀ child ∈ expr.children, motive child.1) → motive expr)
    (expr : Expr) : motive expr := by
  have leaf : ∀ expr : Expr, expr.children = [] → motive expr := by
    intro expr none
    apply step
    simp [none]
  induction expr with
  | null => exact leaf _ rfl
  | literalInt32 value => exact leaf _ rfl
  | literalFloat value => exact leaf _ rfl
  | variableRef var => exact leaf _ rfl
  | binary lValue operation rValue leftIH rightIH =>
      apply step
      simp [Expr.children, leftIH, rightIH]
  | assignVariable var valueExpr valueIH =>
      apply step
      simp [Expr.children, valueIH]
  | «return» valueExpr valueIH =>
      apply step
      simp [Expr.children, valueIH]
  | block scope expressions each =>
      apply step
      intro child member
      exact each child.1 (List.fst_mem_of_mem_zipIdx member)
  | conditional condition truePart falsePart conditionIH trueIH falseIH =>
      apply step
      intro child member
      simp only [Expr.children, List.mem_cons, List.mem_append] at member
      rcases member with (rfl | member) | member
      · exact conditionIH
      · split at member
        · cases member
        · rw [List.mem_singleton.mp member]
          exact trueIH
      · split at member
        · cases member
        · rw [List.mem_singleton.mp member]
          exact falseIH

/-! ## Where a callback comes from -/

/-- The callbacks of a bracket without those of the children. -/
def bracketCallbacks (node : Node) (opening closing : List Callback) :
    List Callback :=
  .visitingNode node :: opening ++ closing ++ [.visitedNode node]

/-- The callbacks the walker issues for a node itself. -/
def Expr.ownCallbacks (expr : Expr) : List Callback :=
  if expr.isNull then
    [.nullArgument]
  else
    bracketCallbacks (.expr expr) expr.opening expr.closing

theorem mem_map_site {path : Path} {callbacks : List Callback} {site : Site} :
    site ∈ callbacks.map (Site.mk path) ↔
      site.path = path ∧ site.callback ∈ callbacks := by
  constructor
  · intro member
    rcases List.mem_map.mp member with ⟨callback, inside, rfl⟩
    exact ⟨rfl, inside⟩
  · rintro ⟨rfl, inside⟩
    exact List.mem_map_of_mem inside

theorem mem_bracket {path : Path} {node : Node} {opening closing : List Callback}
    {children : List Site} {site : Site} :
    site ∈ bracket path node opening children closing ↔
      site ∈ children ∨
        site.path = path ∧
          site.callback ∈ bracketCallbacks node opening closing := by
  have sites : bracket path node opening children closing =
      (.visitingNode node :: opening).map (Site.mk path) ++ children ++
        (closing ++ [Callback.visitedNode node]).map (Site.mk path) := by
    simp [bracket]
  have callbacks : bracketCallbacks node opening closing =
      (.visitingNode node :: opening) ++ (closing ++ [Callback.visitedNode node]) := by
    simp [bracketCallbacks]
  simp only [sites, callbacks, List.mem_append (a := site),
    List.mem_append (a := site.callback) (s := _ :: opening), mem_map_site]
  constructor
  · rintro ((⟨here, own⟩ | member) | ⟨here, own⟩)
    · exact .inr ⟨here, .inl own⟩
    · exact .inl member
    · exact .inr ⟨here, .inr own⟩
  · rintro (member | ⟨here, own | own⟩)
    · exact .inl (.inr member)
    · exact .inl (.inl ⟨here, own⟩)
    · exact .inr ⟨here, own⟩

/-- Only for a missing child a null test is issued. -/
theorem Expr.nullArgument_mem_ownCallbacks {expr : Expr} :
    .nullArgument ∈ expr.ownCallbacks ↔ expr.isNull = true := by
  cases expr <;> simp [Expr.ownCallbacks, bracketCallbacks, Expr.isNull,
    Expr.opening, Expr.closing]

/-- Only for a Binary its callback is issued. -/
theorem Expr.eq_of_visitedBinary {expr lValue rValue : Expr}
    {operation : OperationKind}
    (own : .visitedBinary lValue operation rValue ∈ expr.ownCallbacks) :
    expr = .binary lValue operation rValue := by
  cases expr with
  | binary left kind right =>
      simp [Expr.ownCallbacks, bracketCallbacks, Expr.isNull, Expr.opening,
        Expr.closing] at own
      simp [own]
  | _ =>
      simp [Expr.ownCallbacks, bracketCallbacks, Expr.isNull, Expr.opening,
        Expr.closing] at own

/-- A site of a tree belongs to the tree or to a child of it. -/
theorem Expr.mem_sites {expr : Expr} {path : Path} {site : Site} :
    site ∈ expr.sites path ↔
      site.path = path ∧ site.callback ∈ expr.ownCallbacks ∨
        ∃ child ∈ expr.children,
          site ∈ child.1.sites (⟨.expr expr, child.2⟩ :: path) := by
  cases present : expr.isNull with
  | true =>
      cases expr <;> simp [Expr.isNull] at present
      rcases site with ⟨place, callback⟩
      simp [Expr.sites, Expr.ownCallbacks, Expr.isNull, Expr.children]
  | false =>
      rw [Expr.sites_eq present, mem_bracket, Expr.innerSites,
        List.mem_flatMap, Expr.ownCallbacks, present]
      exact or_comm

/--
If a property of a tree passes to the children of the tree, every callback of the
walk is issued for a node that has it.
-/
theorem Expr.sites_hereditary {motive : Expr → Prop}
    (hereditary : ∀ expr, motive expr →
      ∀ child ∈ expr.children, motive child.1)
    (expr : Expr) (holds : motive expr) {path : Path} {site : Site}
    (member : site ∈ expr.sites path) :
    ∃ part, motive part ∧ site.callback ∈ part.ownCallbacks := by
  induction expr using Expr.children_induction generalizing path with
  | step expr ih =>
      rcases Expr.mem_sites.mp member with ⟨-, own⟩ | ⟨child, inside, member⟩
      · exact ⟨expr, holds, own⟩
      · exact ih child inside (hereditary expr holds child inside) member

/-- A site of a tree stands in the tree. -/
theorem Expr.suffix_of_mem_sites (expr : Expr) {path : Path} {site : Site}
    (member : site ∈ expr.sites path) : path <:+ site.path := by
  induction expr using Expr.children_induction generalizing path with
  | step expr ih =>
      rcases Expr.mem_sites.mp member with ⟨same, -⟩ | ⟨child, inside, member⟩
      · rw [same]
      · exact (List.suffix_cons _ _).trans (ih child inside member)

theorem Expr.sites_split_child (path : Path) {expr : Expr}
    {child : Expr × Nat} (inside : child ∈ expr.children) :
    ∃ before after,
      expr.sites path =
        before ++ child.1.sites (⟨.expr expr, child.2⟩ :: path) ++ after := by
  cases present : expr.isNull with
  | true =>
      cases expr <;> simp [Expr.isNull] at present
      cases inside
  | false =>
      rcases List.append_of_mem inside with ⟨left, right, parts⟩
      rw [Expr.sites_eq present, Expr.innerSites, parts, List.flatMap_append,
        List.flatMap_cons]
      exact ⟨⟨path, .visitingNode (.expr expr)⟩ ::
          expr.opening.map (Site.mk path) ++
            left.flatMap (fun child =>
              child.1.sites (⟨.expr expr, child.2⟩ :: path)),
        right.flatMap (fun child =>
            child.1.sites (⟨.expr expr, child.2⟩ :: path)) ++
          expr.closing.map (Site.mk path) ++
            [⟨path, .visitedNode (.expr expr)⟩],
        by simp [bracket]⟩

/-- A site of a tree belongs to a subtree that is walked in one piece. -/
theorem Expr.exists_subtree (expr : Expr) {path : Path} {site : Site}
    (member : site ∈ expr.sites path) :
    ∃ (part : Expr) (before after : List Site), site.callback ∈ part.ownCallbacks ∧
      expr.sites path = before ++ part.sites site.path ++ after := by
  induction expr using Expr.children_induction generalizing path with
  | step expr ih =>
      rcases Expr.mem_sites.mp member with ⟨rfl, own⟩ | ⟨child, inside, member⟩
      · exact ⟨expr, [], [], own, by simp⟩
      · rcases ih child inside member with ⟨part, before, after, own, split⟩
        rcases Expr.sites_split_child path inside with ⟨left, right, parts⟩
        refine ⟨part, left ++ before, after ++ right, own, ?_⟩
        rw [parts, split]
        simp only [List.append_assoc]

/-! ## Functions and modules -/

/-- The callbacks the walker issues for a function itself. -/
def Function.ownCallbacks (func : Function) : List Callback :=
  [.visitingNode (.function func), .visitingFunction func,
    .visitedFunction func, .visitedNode (.function func)]

/-- The callbacks the walker issues for a module itself. -/
def Module.ownCallbacks (owner : Module) : List Callback :=
  [.visitingNode (.module owner), .visitingModule owner,
    .visitedModule owner, .visitedNode (.module owner)]

/-- The path of the body of a function of a module. -/
def Module.bodyPath (owner : Module) (func : Function) (child : Nat) : Path :=
  [⟨.function func, 0⟩, ⟨.module owner, child⟩]

theorem Function.mem_sites {func : Function} {path : Path} {site : Site} :
    site ∈ func.sites path ↔
      site.path = path ∧ site.callback ∈ func.ownCallbacks ∨
        site ∈ func.body.sites (⟨.function func, 0⟩ :: path) := by
  rw [Function.sites, mem_bracket]
  exact or_comm

/-- The sites of one entry of a module. -/
def entrySites (owner : Module) (child : Nat) :
    Option Function → List Site
  | none => [⟨[⟨.module owner, child⟩], .nullArgument⟩]
  | some func => func.sites [⟨.module owner, child⟩]

theorem functionSites_eq_flatMap (owner : Module)
    (functions : List (Option Function)) (first : Nat) :
    functionSites owner functions first =
      (functions.zipIdx first).flatMap fun entry =>
        entrySites owner entry.2 entry.1 := by
  induction functions generalizing first with
  | nil => rfl
  | cons entry rest ih =>
      cases entry <;>
        rw [functionSites, ih, List.zipIdx_cons, List.flatMap_cons] <;> rfl

theorem mem_functionSites {owner : Module} {functions : List (Option Function)}
    {site : Site} :
    site ∈ functionSites owner functions 0 ↔
      ∃ child entry, functions[child]? = some entry ∧
        site ∈ entrySites owner child entry := by
  rw [functionSites_eq_flatMap, List.mem_flatMap]
  constructor
  · rintro ⟨⟨entry, child⟩, place, member⟩
    exact ⟨child, entry, List.mem_zipIdx_iff_getElem?.mp place, member⟩
  · rintro ⟨child, entry, place, member⟩
    exact ⟨(entry, child), List.mem_zipIdx_iff_getElem?.mpr place, member⟩

/-- A site of a module belongs to the module, to a function or to a body. -/
theorem Module.mem_sites {owner : Module} {site : Site}
    (member : site ∈ owner.sites) :
    site.path = [] ∧ site.callback ∈ owner.ownCallbacks ∨
      (∃ child, owner.functions[child]? = some none ∧
        site = ⟨[⟨.module owner, child⟩], .nullArgument⟩) ∨
        ∃ child func, owner.functions[child]? = some (some func) ∧
          (site.path = [⟨.module owner, child⟩] ∧
              site.callback ∈ func.ownCallbacks ∨
            site ∈ func.body.sites (owner.bodyPath func child)) := by
  rw [Module.sites, mem_bracket] at member
  rcases member with member | own
  · right
    rcases mem_functionSites.mp member with ⟨child, entry, place, holds⟩
    cases entry with
    | none => exact .inl ⟨child, place, List.mem_singleton.mp holds⟩
    | some func => exact .inr ⟨child, func, place, Function.mem_sites.mp holds⟩
  · exact .inl own

/-- The callbacks about functions and modules. -/
def Callback.Outer : Callback → Prop
  | .visitingNode (.function _) => True
  | .visitingNode (.module _) => True
  | .visitedNode (.function _) => True
  | .visitedNode (.module _) => True
  | .visitingFunction _ => True
  | .visitedFunction _ => True
  | .visitingModule _ => True
  | .visitedModule _ => True
  | _ => False

theorem Expr.not_outer_of_mem_ownCallbacks (expr : Expr) :
    ∀ callback ∈ expr.ownCallbacks, ¬ callback.Outer := by
  cases expr <;>
    simp [Expr.ownCallbacks, bracketCallbacks, Expr.isNull, Expr.opening,
      Expr.closing, Callback.Outer]

/-- The walk of an expression issues callbacks about expressions only. -/
theorem Expr.not_outer_of_mem_sites {expr : Expr} {path : Path} {site : Site}
    (member : site ∈ expr.sites path) : ¬ site.callback.Outer := by
  obtain ⟨part, -, own⟩ := Expr.sites_hereditary (motive := fun _ => True)
    (fun _ _ _ _ => trivial) expr trivial member
  exact part.not_outer_of_mem_ownCallbacks _ own

/-- Only the module itself is entered as a module. -/
theorem Module.eq_of_visitingModule {owner other : Module} {path : Path}
    (member : ⟨path, .visitingModule other⟩ ∈ owner.sites) :
    path = [] ∧ other = owner := by
  rcases Module.mem_sites member with
    ⟨outermost, own⟩ | ⟨child, -, same⟩ |
      ⟨child, func, place, ⟨-, own⟩ | inBody⟩
  · exact ⟨outermost, by simpa [Module.ownCallbacks] using own⟩
  · cases same
  · simp [Function.ownCallbacks] at own
  · exact absurd trivial (Expr.not_outer_of_mem_sites inBody)

/-! ## No callback is issued twice -/

theorem mem_of_suffixes {path place : Path} {node : Node} {first second : Nat}
    (firstInside : (⟨node, first⟩ :: path) <:+ place)
    (secondInside : (⟨node, second⟩ :: path) <:+ place) : first = second := by
  have same : (⟨node, first⟩ :: path) <:+ (⟨node, second⟩ :: path) :=
    List.suffix_of_suffix_length_le firstInside secondInside (by simp)
  have equal := same.eq_of_length (by simp)
  simpa using equal

/-- A bracket repeats nothing if its callbacks and its children do not. -/
theorem bracket_nodup {path : Path} {node : Node}
    {opening closing : List Callback} {children : List Site}
    (own : (bracketCallbacks node opening closing).Nodup)
    (inner : children.Nodup)
    (apart : ∀ site ∈ children, site.path ≠ path) :
    (bracket path node opening children closing).Nodup := by
  have perm :
      (bracket path node opening children closing).Perm
        ((bracketCallbacks node opening closing).map (Site.mk path) ++
          children) := by
    have swapped :
        (children ++ (closing ++ [Callback.visitedNode node]).map
          (Site.mk path)).Perm
          ((closing ++ [Callback.visitedNode node]).map (Site.mk path) ++
            children) :=
      List.perm_append_comm
    have moved := swapped.append_left
      (⟨path, .visitingNode node⟩ :: opening.map (Site.mk path))
    simpa [bracket, bracketCallbacks, List.append_assoc] using moved
  rw [perm.nodup_iff, List.nodup_append']
  refine ⟨own.map fun _ _ same => (Site.mk.inj same).2, inner, ?_⟩
  intro site ownSite member
  rcases List.mem_map.mp ownSite with ⟨callback, -, rfl⟩
  exact apart _ member rfl

theorem Expr.ownCallbacks_nodup (expr : Expr) : expr.ownCallbacks.Nodup := by
  cases expr <;>
    simp [Expr.ownCallbacks, bracketCallbacks, Expr.isNull, Expr.opening,
      Expr.closing]

theorem Expr.children_numbers_nodup (expr : Expr) :
    (expr.children.map Prod.snd).Nodup := by
  cases expr with
  | block scope expressions =>
      rw [Expr.children, List.zipIdx_map_snd]
      exact List.nodup_range'
  | conditional condition truePart falsePart =>
      rw [Expr.children]
      split <;> split <;> simp
  | _ => simp [Expr.children]

/-- The sites of a tree are distinct. -/
theorem Expr.sites_nodup (expr : Expr) (path : Path) :
    (expr.sites path).Nodup := by
  induction expr using Expr.children_induction generalizing path with
  | step expr ih =>
      cases present : expr.isNull with
      | true =>
          cases expr <;> simp [Expr.isNull] at present
          simp [Expr.sites]
      | false =>
          have own := expr.ownCallbacks_nodup
          rw [Expr.ownCallbacks, present] at own
          rw [Expr.sites_eq present]
          refine bracket_nodup own ?_ ?_
          · refine List.nodup_flatMap.mpr
              ⟨fun child member => ih child member _, ?_⟩
            have numbers := expr.children_numbers_nodup
            rw [List.Nodup, List.pairwise_map] at numbers
            apply numbers.imp
            intro first second different site inFirst inSecond
            exact different (mem_of_suffixes (first.1.suffix_of_mem_sites inFirst)
              (second.1.suffix_of_mem_sites inSecond))
          · intro site member same
            rcases List.mem_flatMap.mp member with ⟨child, -, inside⟩
            have length := (child.1.suffix_of_mem_sites inside).length_le
            rw [same, List.length_cons] at length
            omega

theorem Function.suffix_of_mem_sites (func : Function) {path : Path}
    {site : Site} (member : site ∈ func.sites path) : path <:+ site.path := by
  rcases Function.mem_sites.mp member with ⟨same, -⟩ | inBody
  · rw [same]
  · exact (List.suffix_cons _ _).trans (func.body.suffix_of_mem_sites inBody)

theorem Function.sites_nodup (func : Function) (path : Path) :
    (func.sites path).Nodup := by
  refine bracket_nodup (by simp [bracketCallbacks])
    (func.body.sites_nodup _) ?_
  intro site member same
  have length := (func.body.suffix_of_mem_sites member).length_le
  rw [same, List.length_cons] at length
  omega

theorem suffix_of_mem_entrySites {owner : Module} {child : Nat}
    {entry : Option Function} {site : Site}
    (member : site ∈ entrySites owner child entry) :
    [⟨.module owner, child⟩] <:+ site.path := by
  cases entry with
  | none =>
      rw [List.mem_singleton.mp member]
  | some func => exact func.suffix_of_mem_sites member

/-- The sites of a module are distinct. -/
theorem Module.sites_nodup (owner : Module) : owner.sites.Nodup := by
  refine bracket_nodup (by simp [bracketCallbacks]) ?_ ?_
  · rw [functionSites_eq_flatMap]
    refine List.nodup_flatMap.mpr ⟨?_, ?_⟩
    · rintro ⟨entry, child⟩ -
      cases entry with
      | none => exact List.nodup_singleton _
      | some func => exact func.sites_nodup _
    · have numbers : (owner.functions.zipIdx.map Prod.snd).Nodup := by
        rw [List.zipIdx_map_snd]
        exact List.nodup_range'
      rw [List.Nodup, List.pairwise_map] at numbers
      apply numbers.imp
      intro first second different site inFirst inSecond
      exact different (mem_of_suffixes (suffix_of_mem_entrySites inFirst)
        (suffix_of_mem_entrySites inSecond))
  · intro site member same
    rw [functionSites_eq_flatMap] at member
    rcases List.mem_flatMap.mp member with ⟨entry, -, inside⟩
    have length := (suffix_of_mem_entrySites inside).length_le
    rw [same] at length
    simp at length

/-- What comes before a site of a module is determined by the site. -/
theorem Module.past_unique {owner : Module} {past other future later : List Site}
    {site : Site} (split : owner.sites = past ++ site :: future)
    (otherSplit : owner.sites = other ++ site :: later) : past = other := by
  have distinct := owner.sites_nodup
  rw [split, List.nodup_append', List.nodup_cons] at distinct
  have before : site ∉ past := fun member =>
    distinct.2.2 member List.mem_cons_self
  exact ((List.append_cons_inj_of_notMem before distinct.2.1.1).mp
    (split.symm.trans otherSplit)).1

/-! ## The functions of a module one after another -/

theorem functionSites_append (owner : Module)
    (first second : List (Option Function)) (child : Nat) :
    functionSites owner (first ++ second) child =
      functionSites owner first child ++
        functionSites owner second (child + first.length) := by
  rw [functionSites_eq_flatMap, functionSites_eq_flatMap,
    functionSites_eq_flatMap, List.zipIdx_append, List.flatMap_append]

/-- The sites before an entry of a module. -/
def Module.sitesBefore (owner : Module) (child : Nat) : List Site :=
  ⟨[], .visitingNode (.module owner)⟩ :: ⟨[], .visitingModule owner⟩ ::
    functionSites owner (owner.functions.take child) 0

/-- The sites after the entries of a module. -/
def Module.closingSites (owner : Module) : List Site :=
  [⟨[], .visitedModule owner⟩, ⟨[], .visitedNode (.module owner)⟩]

/-- The sites after an entry of a module. -/
def Module.sitesAfter (owner : Module) (child : Nat) : List Site :=
  functionSites owner (owner.functions.drop (child + 1)) (child + 1) ++
    owner.closingSites

theorem Module.sites_eq (owner : Module) :
    owner.sites =
      owner.sitesBefore owner.functions.length ++ owner.closingSites := by
  rw [Module.sitesBefore, List.take_length]
  simp [Module.sites, bracket, Module.closingSites]

theorem Module.sitesBefore_succ {owner : Module} {child : Nat}
    {func : Function} (place : owner.functions[child]? = some (some func)) :
    owner.sitesBefore (child + 1) =
      owner.sitesBefore child ++ func.sites [⟨.module owner, child⟩] := by
  rcases List.getElem?_eq_some_iff.mp place with ⟨inside, entry⟩
  have length : (owner.functions.take child).length = child := by
    rw [List.length_take]
    omega
  rw [Module.sitesBefore, List.take_succ_eq_append_getElem inside, entry,
    functionSites_append, length, Nat.zero_add]
  simp [Module.sitesBefore, functionSites]

theorem Module.sites_split {owner : Module} {child : Nat} {func : Function}
    (place : owner.functions[child]? = some (some func)) :
    owner.sites =
      owner.sitesBefore child ++ func.sites [⟨.module owner, child⟩] ++
        owner.sitesAfter child := by
  rcases List.getElem?_eq_some_iff.mp place with ⟨inside, entry⟩
  have length : (owner.functions.take (child + 1)).length = child + 1 := by
    rw [List.length_take]
    omega
  have parts : functionSites owner owner.functions 0 =
      functionSites owner (owner.functions.take (child + 1)) 0 ++
        functionSites owner (owner.functions.drop (child + 1)) (child + 1) := by
    conv_lhs => rw [← List.take_append_drop (child + 1) owner.functions]
    rw [functionSites_append, length, Nat.zero_add]
  rw [← Module.sitesBefore_succ place, Module.sites_eq, Module.sitesBefore,
    List.take_length, parts]
  simp [Module.sitesBefore, Module.sitesAfter]

/-- The sites before an entry begin with those before any earlier entry. -/
theorem Module.sitesBefore_le (owner : Module) {child later : Nat}
    (before : child ≤ later) :
    ∃ rest, owner.sitesBefore later = owner.sitesBefore child ++ rest := by
  have parts := functionSites_append owner
    ((owner.functions.take later).take child)
    ((owner.functions.take later).drop child) 0
  rw [List.take_append_drop, List.take_take, Nat.min_eq_left before] at parts
  rw [Module.sitesBefore, parts]
  exact ⟨_, rfl⟩

/-- The sites around a function in a module that contains it. -/
theorem Module.sites_around {owner : Module} {child : Nat} {func : Function}
    (place : owner.functions[child]? = some (some func)) :
    owner.sites =
      owner.sitesBefore child ++
        ⟨[⟨.module owner, child⟩], .visitingNode (.function func)⟩ ::
        ⟨[⟨.module owner, child⟩], .visitingFunction func⟩ ::
          (func.body.sites (owner.bodyPath func child) ++
            ⟨[⟨.module owner, child⟩], .visitedFunction func⟩ ::
              ⟨[⟨.module owner, child⟩], .visitedNode (.function func)⟩ ::
                owner.sitesAfter child) := by
  rw [Module.sites_split place]
  simp [Function.sites, bracket, Module.bodyPath]

/-- A callback about an expression belongs to a subtree of the module. -/
theorem Module.exists_subtree {owner : Module} {site : Site}
    (member : site ∈ owner.sites) (inner : ¬ site.callback.Outer)
    (present : site.callback ≠ .nullArgument) :
    ∃ (part : Expr) (before after : List Site), site.callback ∈ part.ownCallbacks ∧
      owner.sites = before ++ part.sites site.path ++ after := by
  rcases Module.mem_sites member with
    ⟨-, own⟩ | ⟨child, -, same⟩ | ⟨child, func, place, ⟨-, own⟩ | inBody⟩
  · refine absurd ?_ inner
    simp only [Module.ownCallbacks, List.mem_cons, List.not_mem_nil,
      or_false] at own
    rcases own with own | own | own | own <;> rw [own] <;> trivial
  · rw [same] at present
    exact absurd rfl present
  · refine absurd ?_ inner
    simp only [Function.ownCallbacks, List.mem_cons, List.not_mem_nil,
      or_false] at own
    rcases own with own | own | own | own <;> rw [own] <;> trivial
  · rcases func.body.exists_subtree inBody with
      ⟨part, before, after, own, split⟩
    let path : Path := [⟨.module owner, child⟩]
    refine ⟨part,
      owner.sitesBefore child ++
        [⟨path, .visitingNode (.function func)⟩,
          ⟨path, .visitingFunction func⟩] ++ before,
      after ++ [⟨path, .visitedFunction func⟩,
        ⟨path, .visitedNode (.function func)⟩] ++ owner.sitesAfter child,
      own, ?_⟩
    rw [Module.sites_around place, split]
    simp [path]

/-- Nothing but the opening of its node comes before a module is entered. -/
theorem Module.past_of_visitingModule {owner other : Module} {path : Path}
    {past future : List Site}
    (split : owner.sites = past ++ ⟨path, .visitingModule other⟩ :: future) :
    past = [⟨[], .visitingNode (.module owner)⟩] := by
  have member : ⟨path, .visitingModule other⟩ ∈ owner.sites := by
    simp [split]
  rcases Module.eq_of_visitingModule member with ⟨rfl, same⟩
  subst same
  have opening : other.sites =
      [⟨[], .visitingNode (.module other)⟩] ++
        ⟨[], .visitingModule other⟩ ::
          (functionSites other other.functions 0 ++ other.closingSites) := by
    simp [Module.sites, bracket, Module.closingSites]
  exact Module.past_unique split opening

end Llast
