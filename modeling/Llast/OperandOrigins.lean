import Llast.ExprRunner
import Llast.StatementPrograms

/-!
# Where the operands come from

"Everything is an expression": the value of a Block is the value of its last
expression, and the value of an assignment is the assigned value.  What a Binary, an
assignment or a Return uses is whatever lies on top of the value stack.  `origins`
keeps, beside the value stack, the callback that pushed each value.  With it one can
say that a value is an operand's own, also where another node happens to push an
equal value.
-/

namespace Llast

open Llast.EventRun
open Llast.CodeGenVisitor

/-! ## The callbacks that pushed the values -/

/-- The callbacks that pushed the values that are on the stack. -/
def origins (past : List Site) : List Site :=
  past.foldl (Site.onStack fun site _ => site) []

theorem origins_append (past later : List Site) :
    origins (past ++ later) =
      later.foldl (Site.onStack fun site _ => site) (origins past) :=
  List.foldl_append

theorem origins_append_singleton (past : List Site) (site : Site) :
    origins (past ++ [site]) =
      site.onStack (fun site _ => site) (origins past) :=
  origins_append past [site]

theorem Site.mem_onStack {Entry : Type} {result : Site → List Entry → Entry}
    {site : Site} {stack : List Entry} {entry : Entry}
    (member : entry ∈ site.onStack result stack) :
    entry = result site stack ∨ entry ∈ stack := by
  rw [Site.onStack] at member
  split at member
  · exact .inr (List.mem_of_mem_tail member)
  · split at member
    · rcases List.mem_cons.mp member with rfl | member
      · exact .inl rfl
      · exact .inr (List.mem_of_mem_drop member)
    · exact .inr (List.mem_of_mem_drop member)

/-- What is on the stack was there before or has been pushed since. -/
theorem mem_foldl_onStack {Entry : Type} (label : Site → Entry)
    {later : List Site} {stack : List Entry} {entry : Entry}
    (member : entry ∈
      later.foldl (Site.onStack fun site _ => label site) stack) :
    entry ∈ stack ∨ entry ∈ later.map label := by
  induction later generalizing stack with
  | nil => exact .inl member
  | cons site rest ih =>
      rcases ih member with onStack | since
      · rcases Site.mem_onStack onStack with rfl | before
        · exact .inr List.mem_cons_self
        · exact .inl before
      · exact .inr (List.mem_cons_of_mem _ since)

theorem mem_origins_append {past later : List Site} {source : Site}
    (member : source ∈ origins (past ++ later)) :
    source ∈ origins past ∨ source ∈ later := by
  rw [origins_append] at member
  rcases mem_foldl_onStack id member with before | since
  · exact .inl before
  · exact .inr (List.map_id later ▸ since)

theorem mem_of_mem_origins {past : List Site} {source : Site}
    (member : source ∈ origins past) : source ∈ past := by
  have parts : source ∈ origins ([] ++ past) := member
  rcases mem_origins_append parts with absurdity | member
  · cases absurdity
  · exact member

/-- No callback pushes twice. -/
theorem origins_nodup {past : List Site} (distinct : past.Nodup) :
    (origins past).Nodup := by
  induction past using List.reverseRecOn with
  | nil => exact List.nodup_nil
  | append_singleton past site ih =>
      rw [List.nodup_append'] at distinct
      rcases distinct with ⟨earlier, -, apart⟩
      have before := ih earlier
      have fresh : site ∉ origins past := by
        intro member
        exact apart (mem_of_mem_origins member) List.mem_cons_self
      rw [origins_append_singleton]
      rw [Site.onStack]
      split
      · exact before.sublist (List.tail_sublist _)
      · split
        · refine List.nodup_cons.mpr ⟨?_, before.sublist (List.drop_sublist _ _)⟩
          exact fun member => fresh (List.mem_of_mem_drop member)
        · exact before.sublist (List.drop_sublist _ _)

/-- Among these callbacks is `source`, and `value` is what it pushed. -/
def PushedBy (past : List Site) (source : Site) (value : Value) : Prop :=
  ∃ before after start next rest, past = before ++ source :: after ∧
    run codeGen.performAt before {} = .ok () start ∧
      codeGen.performAt source start = .ok () next ∧
        next.valueStack_ = value :: rest

/-- Every value on the stack was pushed by the callback that is kept for it. -/
theorem Module.Reaches.pushedBy {owner : Module} {past : List Site}
    {site : Site} {visitor : CodeGenVisitor}
    (reached : owner.Reaches past site visitor) :
    List.Forall₂ (PushedBy past) (origins past) visitor.valueStack_ := by
  rcases reached.occurs with ⟨future, split⟩
  have related : List.Forall₂ (fun value source => PushedBy past source value)
      visitor.valueStack_ (origins past) := by
    refine @Module.valueStack_related owner Site
      (fun past value source => PushedBy past source value)
      (fun site _ => site) ?_ ?_ past _ visitor split reached.reaches
    · rintro past site value source
        ⟨before, after, start, next, rest, rfl, reaches, pushes, top⟩
      exact ⟨before, after ++ [site], start, next, rest, by simp, reaches,
        pushes, top⟩
    · intro past site before after value rest entries reached performs pushes
        stack same
      exact ⟨past, [], before, after, rest, rfl, reached.reaches,
        perform_eq_ok_iff.mpr performs, stack⟩
  exact related.flip

/-! ## The value of an expression -/

mutual

/--
The callback that pushes the value of an expression: that of the last expression of
a Block, and that of the assigned value.
-/
def Expr.valueSite : Expr → Path → Site
  | .null, path => ⟨path, .nullArgument⟩
  | .literalInt32 value, path => ⟨path, .visitLiteralInt32 value⟩
  | .literalFloat value, path => ⟨path, .visitLiteralFloat value⟩
  | .binary lValue operation rValue, path =>
      ⟨path, .visitedBinary lValue operation rValue⟩
  | .variableRef var, path => ⟨path, .visitVariableRef var⟩
  | .assignVariable var valueExpr, path =>
      valueExpr.valueSite
        (⟨.expr (.assignVariable var valueExpr), 0⟩ :: path)
  | .return valueExpr, path => ⟨path, .visitedReturn valueExpr⟩
  | .block scope expressions, path =>
      backValueSite expressions (.expr (.block scope expressions)) path 0
  | .conditional condition truePart falsePart, path =>
      ⟨path, .visitedConditional condition truePart falsePart⟩

/-- The callback that pushes the value of the last child of a Block. -/
def backValueSite : List Expr → Node → Path → Nat → Site
  | [], node, path, _ => ⟨path, .visitedNode node⟩
  | [last], node, path, child => last.valueSite (⟨node, child⟩ :: path)
  | _ :: next :: rest, node, path, child =>
      backValueSite (next :: rest) node path (child + 1)

end

theorem backValueSite_append (first : List Expr) (last : Expr) (node : Node)
    (path : Path) (child : Nat) :
    backValueSite (first ++ [last]) node path child =
      last.valueSite (⟨node, child + first.length⟩ :: path) := by
  induction first generalizing child with
  | nil => rfl
  | cons head rest ih =>
      have more : ∃ next others, rest ++ [last] = next :: others := by
        cases rest with
        | nil => exact ⟨_, _, rfl⟩
        | cons next others => exact ⟨_, _, rfl⟩
      rcases more with ⟨next, others, same⟩
      rw [List.cons_append, same, backValueSite, ← same, ih, List.length_cons,
        Nat.add_assoc, Nat.add_comm 1]

theorem childSites_append (first second : List Expr) (node : Node)
    (path : Path) (child : Nat) :
    childSites (first ++ second) node path child =
      childSites first node path child ++
        childSites second node path (child + first.length) := by
  induction first generalizing child with
  | nil => rfl
  | cons head rest ih =>
      rw [List.cons_append, childSites, ih, childSites, List.append_assoc,
        List.length_cons, Nat.add_assoc, Nat.add_comm 1]

/-- The expressions an operand may be built from. -/
inductive Expr.Operand : Expr → Prop where
  | literalInt32 (value) : Expr.Operand (.literalInt32 value)
  | literalFloat (value) : Expr.Operand (.literalFloat value)
  | variableRef (var) : Expr.Operand (.variableRef var)
  | binary {lValue rValue : Expr} (operation)
      (left : lValue.Operand) (right : rValue.Operand) :
      Expr.Operand (.binary lValue operation rValue)
  | assignVariable {valueExpr : Expr} (var) (assigned : valueExpr.Operand) :
      Expr.Operand (.assignVariable var valueExpr)
  | block {expressions : List Expr} (scope) (some : expressions ≠ [])
      (each : ∀ child ∈ expressions, child.Operand) :
      Expr.Operand (.block scope expressions)

/-- A Block or an assignment. -/
def Expr.BlockOrAssignment : Expr → Prop
  | .block _ _ => True
  | .assignVariable _ _ => True
  | _ => False

theorem Expr.Operand.valueSite_mem {expr : Expr} (operand : expr.Operand)
    (path : Path) : expr.valueSite path ∈ expr.sites path := by
  induction operand generalizing path with
  | literalInt32 value => simp [Expr.valueSite, Expr.sites, bracket]
  | literalFloat value => simp [Expr.valueSite, Expr.sites, bracket]
  | variableRef var => simp [Expr.valueSite, Expr.sites, bracket]
  | binary operation left right leftIH rightIH =>
      simp [Expr.valueSite, Expr.sites, bracket]
  | assignVariable var assigned ih =>
      simp [Expr.valueSite, Expr.sites, bracket, ih]
  | block scope some each ih =>
      rcases (List.eq_nil_or_concat _).resolve_left some with ⟨first, last, rfl⟩
      rw [List.concat_eq_append] at ih ⊢
      rw [Expr.valueSite, backValueSite_append, Expr.sites, mem_bracket,
        childSites_append]
      left
      simp [childSites, ih last (by simp)]

/-! ## The operands of a callback -/

/-- The operands of a callback with their places, the topmost first. -/
def Site.operandTrees (site : Site) : List (Expr × Path) :=
  match site.callback with
  | .visitedBinary lValue operation rValue =>
      let node := Node.expr (.binary lValue operation rValue)
      [(rValue, ⟨node, 1⟩ :: site.path), (lValue, ⟨node, 0⟩ :: site.path)]
  | .visitedAssignVariable var valueExpr =>
      [(valueExpr, ⟨.expr (.assignVariable var valueExpr), 0⟩ :: site.path)]
  | .visitedReturn valueExpr =>
      [(valueExpr, ⟨.expr (.return valueExpr), 0⟩ :: site.path)]
  | _ => []

/-- A callback with operands closes the node whose children they are. -/
theorem Expr.closes_of_operandTrees {part : Expr} {site : Site}
    (own : site.callback ∈ part.ownCallbacks)
    (some : site.operandTrees ≠ []) :
    part.isNull = false ∧ part.closing = [site.callback] ∧
      site.operandTrees.reverse = part.children.map fun child =>
        (child.1, ⟨.expr part, child.2⟩ :: site.path) := by
  rcases site with ⟨path, callback⟩
  cases part <;>
    simp only [Expr.ownCallbacks, bracketCallbacks, Expr.isNull, Expr.opening,
      Expr.closing, Bool.false_eq_true, if_false, if_true, List.cons_append,
      List.nil_append, List.mem_cons, List.not_mem_nil, or_false] at own
  case null => subst own; exact absurd rfl some
  all_goals
    rcases own with rfl | rfl | rfl | rfl <;>
      first
        | exact absurd rfl some
        | exact ⟨rfl, rfl, rfl⟩

/-- The operands of a callback are walked directly before it. -/
theorem Module.operandTrees_split {owner : Module} {past future : List Site}
    {site : Site} (split : owner.sites = past ++ site :: future) :
    ∃ before, past =
      before ++ site.operandTrees.reverse.flatMap fun operand =>
        operand.1.sites operand.2 := by
  by_cases some : site.operandTrees = []
  · exact ⟨past, by simp [some]⟩
  have member : site ∈ owner.sites := by simp [split]
  have inner : ¬ site.callback.Outer := by
    rcases site with ⟨path, callback⟩
    cases callback <;> first | exact id | exact absurd rfl some
  have present : site.callback ≠ .nullArgument := by
    rcases site with ⟨path, callback⟩
    rintro rfl
    exact some rfl
  rcases Module.exists_subtree member inner present with
    ⟨part, before, after, own, walked⟩
  rcases Expr.closes_of_operandTrees own some with ⟨notNull, closing, children⟩
  refine ⟨before ++ ⟨site.path, .visitingNode (.expr part)⟩ ::
    part.opening.map (Site.mk site.path), ?_⟩
  have whole : owner.sites =
      (before ++ ⟨site.path, .visitingNode (.expr part)⟩ ::
        part.opening.map (Site.mk site.path) ++
          part.innerSites site.path) ++
        site :: (⟨site.path, .visitedNode (.expr part)⟩ :: after) := by
    rw [walked, Expr.sites_eq notNull, closing]
    simp [bracket]
  rw [Module.past_unique split whole, children, List.flatMap_map]
  rfl

/-- The callbacks of an operand are followed by those of the operands above. -/
theorem Module.operandTrees_around {owner : Module} {past future : List Site}
    {site : Site} (split : owner.sites = past ++ site :: future) {depth : Nat}
    {operand : Expr × Path}
    (found : site.operandTrees[depth]? = some operand) :
    ∃ before, past =
      before ++ operand.1.sites operand.2 ++
        (site.operandTrees.take depth).reverse.flatMap fun operand =>
          operand.1.sites operand.2 := by
  rcases Module.operandTrees_split split with ⟨before, parts⟩
  rcases List.getElem?_eq_some_iff.mp found with ⟨inside, same⟩
  have trees : site.operandTrees = site.operandTrees.take depth ++
      operand :: site.operandTrees.drop (depth + 1) := by
    rw [← same, ← List.drop_eq_getElem_cons inside, List.take_append_drop]
  refine ⟨before ++ (site.operandTrees.drop (depth + 1)).reverse.flatMap
    fun operand => operand.1.sites operand.2, ?_⟩
  rw [parts]
  conv_lhs => rw [trees]
  simp

/-! ## Values below other values -/

/--
The callbacks of the expression leave one value on top of what was there: with a mark
below, they end with one value over the mark.
-/
def Expr.LeavesOneValue (expr : Expr) (path : Path) : Prop :=
  (expr.sites path).foldl (Site.onStack fun _ _ => true) [false] =
    [true, false]

theorem Expr.Pure.foldl_onStack {expr : Expr} (pure : expr.Pure) (path : Path)
    {Entry : Type} (label : Site → Entry) (stack : List Entry) :
    (expr.sites path).foldl (Site.onStack fun site _ => label site) stack =
      label (expr.valueSite path) :: stack := by
  induction pure generalizing path stack with
  | literalInt32 value => rfl
  | literalFloat value => rfl
  | variableRef var => rfl
  | binary operation left right leftIH rightIH =>
      rw [Expr.sites]
      simp only [bracket, List.cons_append, List.foldl_cons,
        List.foldl_append, List.map_cons, List.map_nil, leftIH, rightIH]
      rfl

/-- Literals, references and the Binaries built of them leave one value each. -/
theorem Expr.Pure.leavesOneValue {expr : Expr} (pure : expr.Pure)
    (path : Path) : expr.LeavesOneValue path :=
  pure.foldl_onStack path (fun _ => true) [false]

/-- A callback leaves a value where it is, or the value is gone. -/
theorem Site.onStack_mark (site : Site) (upper rest : List Site)
    (mark : Site) :
    (∃ above,
      site.onStack (fun site _ => site) (upper ++ mark :: rest) =
          above ++ mark :: rest ∧
        site.onStack (fun _ _ => true) (upper.map (fun _ => true) ++ [false]) =
            above.map (fun _ => true) ++ [false] ∧
          ∀ entry ∈ above, entry = site ∨ entry ∈ upper) ∨
      (∀ entry ∈ site.onStack (fun site _ => site) (upper ++ mark :: rest),
        entry = site ∨ entry ∈ rest) ∧
        false ∉ site.onStack (fun _ _ => true)
          (upper.map (fun _ => true) ++ [false]) := by
  rw [Site.onStack, Site.onStack]
  split
  · cases upper with
    | nil => exact .inr ⟨fun entry member => .inr member, List.not_mem_nil⟩
    | cons top below =>
        exact .inl ⟨below, rfl, rfl, fun entry member =>
          .inr (List.mem_cons_of_mem _ member)⟩
  · by_cases enough : site.callback.operands ≤ upper.length
    · have kept : (upper.map fun _ => true).drop site.callback.operands =
          (upper.drop site.callback.operands).map fun _ => true :=
        List.map_drop.symm
      have marks : site.callback.operands ≤
          (upper.map fun _ => true).length := by
        rw [List.length_map]
        exact enough
      left
      rw [List.drop_append_of_le_length enough,
        List.drop_append_of_le_length marks, kept]
      split
      · refine ⟨site :: upper.drop site.callback.operands, rfl, rfl, ?_⟩
        intro entry member
        rcases List.mem_cons.mp member with rfl | member
        · exact .inl rfl
        · exact .inr (List.mem_of_mem_drop member)
      · exact ⟨_, rfl, rfl, fun entry member =>
          .inr (List.mem_of_mem_drop member)⟩
    · have more : ∃ count,
          site.callback.operands = upper.length + 1 + count :=
        Nat.exists_eq_add_of_lt (Nat.not_le.mp enough) |>.imp fun _ same => by
          omega
      rcases more with ⟨count, same⟩
      have left : (upper ++ mark :: rest).drop site.callback.operands =
          rest.drop count := by
        rw [same, Nat.add_assoc, Nat.add_comm 1, List.drop_append]
        simp
      have right : ((upper.map fun _ => true) ++ [false]).drop
          site.callback.operands = [] := by
        apply List.drop_eq_nil_of_le
        simp [same]
      right
      rw [left, right]
      split
      · constructor
        · intro entry member
          rcases List.mem_cons.mp member with rfl | member
          · exact .inl rfl
          · exact .inr (List.mem_of_mem_drop member)
        · simp
      · exact ⟨fun entry member => .inr (List.mem_of_mem_drop member),
          List.not_mem_nil⟩

/-- Whether one value is left over another one does not depend on what they are. -/
theorem foldl_onStack_mark {sites rest : List Site} {mark : Site}
    (upper : List Site)
    (fresh : mark ∉ sites) (above : mark ∉ upper) (below : mark ∉ rest) :
    (sites.foldl (Site.onStack fun site _ => site)
        (upper ++ mark :: rest))[1]? = some mark ↔
      sites.foldl (Site.onStack fun _ _ => true)
        (upper.map (fun _ => true) ++ [false]) = [true, false] := by
  induction sites generalizing upper with
  | nil =>
      rcases upper with _ | ⟨top, _ | ⟨next, more⟩⟩
      · constructor
        · intro found
          exact absurd (List.mem_of_getElem? (List.getElem?_cons_succ ▸ found))
            below
        · intro absurdity
          cases absurdity
      · exact ⟨fun _ => rfl, fun _ => rfl⟩
      · constructor
        · intro found
          have same : next = mark := Option.some.inj found
          exact absurd (by simp [same]) above
        · intro absurdity
          simp at absurdity
  | cons site rest' ih =>
      rw [List.foldl_cons, List.foldl_cons]
      rcases site.onStack_mark upper rest mark with
        ⟨kept, one, two, entries⟩ | ⟨entries, gone⟩
      · rw [one, two]
        apply ih kept (fun member => fresh (List.mem_cons_of_mem _ member))
        intro member
        rcases entries mark member with same | before
        · exact fresh (same ▸ List.mem_cons_self)
        · exact above before
      · constructor
        · intro found
          rcases mem_foldl_onStack id (List.mem_of_getElem? found)
            with onStack | since
          · rcases entries mark onStack with same | member
            · exact absurd (same ▸ List.mem_cons_self) fresh
            · exact absurd member below
          · rw [List.map_id] at since
            exact absurd (List.mem_cons_of_mem _ since) fresh
        · intro ends
          have marked : false ∈ rest'.foldl (Site.onStack fun _ _ => true)
              (site.onStack (fun _ _ => true)
                (upper.map (fun _ => true) ++ [false])) := by
            rw [ends]
            simp
          rcases mem_foldl_onStack (fun _ => true) marked with
            onStack | since
          · exact absurd onStack gone
          · simp at since

/-! ## Blocks and assignments as operands -/

/-- The values that the callback takes are those of its operands. -/
def Site.TakesSources (past : List Site) (site : Site) : Prop :=
  ∀ (depth : Nat) (operand : Expr × Path),
    site.operandTrees[depth]? = some operand → operand.1.Operand →
      (origins past)[depth]? = some (operand.1.valueSite operand.2)

/-- A literal, a reference or a Binary leaves its value on top of the stack. -/
theorem Expr.Operand.origins_eq {expr : Expr} (operand : expr.Operand)
    (simple : ¬ expr.BlockOrAssignment) (earlier : List Site) (path : Path) :
    ∃ rest, origins (earlier ++ expr.sites path) =
      expr.valueSite path :: rest := by
  rw [origins_append]
  cases operand with
  | literalInt32 value => exact ⟨_, rfl⟩
  | literalFloat value => exact ⟨_, rfl⟩
  | variableRef var => exact ⟨_, rfl⟩
  | binary operation left right =>
      rw [Expr.sites, bracket, List.foldl_append, List.foldl_append]
      exact ⟨_, rfl⟩
  | assignVariable var assigned => exact absurd trivial simple
  | block scope some each => exact absurd trivial simple

/-- After an assignment the assigned value has been taken from the stack. -/
theorem Expr.Operand.assigned_lost {var : Variable} {valueExpr : Expr}
    (assigned : valueExpr.Operand) {earlier : List Site} {path : Path}
    (distinct :
      (earlier ++ (Expr.assignVariable var valueExpr).sites path).Nodup)
    (takes : Throughout Site.TakesSources
      (earlier ++ (Expr.assignVariable var valueExpr).sites path)) :
    (Expr.assignVariable var valueExpr).valueSite path ∉
      origins (earlier ++ (Expr.assignVariable var valueExpr).sites path) := by
  let node := Node.expr (.assignVariable var valueExpr)
  let place : Path := ⟨node, 0⟩ :: path
  let assign : Site := ⟨path, .visitedAssignVariable var valueExpr⟩
  let before := earlier ++ [⟨path, .visitingNode node⟩,
    ⟨path, .visitingAssignVariable var valueExpr⟩] ++ valueExpr.sites place
  have parts : earlier ++ (Expr.assignVariable var valueExpr).sites path =
      before ++ assign :: [⟨path, .visitedNode node⟩] := by
    simp [before, assign, place, node, Expr.sites, bracket]
  rw [parts] at distinct takes ⊢
  have own := takes before assign _ rfl 0 _ rfl assigned
  rw [← List.head?_eq_getElem?, List.head?_eq_some_iff] at own
  rcases own with ⟨rest, own⟩
  have values := origins_nodup (List.nodup_append'.mp distinct).1
  rw [own] at values
  have stack : origins (before ++ assign :: [⟨path, .visitedNode node⟩]) =
      assign :: rest := by
    rw [origins_append, own]
    rfl
  rw [stack, List.mem_cons]
  rintro (same | member)
  · have walked : valueExpr.valueSite place ∈ before :=
      List.mem_append_right _ (assigned.valueSite_mem place)
    have same : valueExpr.valueSite place = assign := same
    rw [same] at walked
    exact (List.nodup_append'.mp distinct).2.2 walked List.mem_cons_self
  · exact (List.nodup_cons.mp values).1 member

/--
After a Block the value of its last expression is gone: it was the topmost and has
been dropped, or it was gone before.
-/
theorem Expr.Operand.last_lost {scope : Scope} {first : List Expr} {last : Expr}
    (operand : last.Operand) {earlier : List Site} {path : Path}
    (inside : path ≠ [])
    (distinct :
      (earlier ++ (Expr.block scope (first ++ [last])).sites path).Nodup)
    (takes : Throughout Site.TakesSources
      (earlier ++ (Expr.block scope (first ++ [last])).sites path))
    (gone : last.BlockOrAssignment → ∀ earlier place, place ≠ [] →
      (earlier ++ last.sites place).Nodup →
        Throughout Site.TakesSources (earlier ++ last.sites place) →
          last.valueSite place ∉ origins (earlier ++ last.sites place)) :
    (Expr.block scope (first ++ [last])).valueSite path ∉
      origins (earlier ++
        (Expr.block scope (first ++ [last])).sites path) := by
  let node := Node.expr (.block scope (first ++ [last]))
  let place : Path := ⟨node, 0 + first.length⟩ :: path
  let before := earlier ++ [⟨path, .visitingNode node⟩,
    ⟨path, .visitingBlock scope (first ++ [last])⟩] ++
      childSites first node path 0
  have parts : earlier ++ (Expr.block scope (first ++ [last])).sites path =
      (before ++ last.sites place) ++
        [⟨path, .visitedBlock scope (first ++ [last])⟩,
          ⟨path, .visitedNode node⟩] := by
    simp [before, place, node, Expr.sites, bracket, childSites_append,
      childSites]
  have stack : origins ((before ++ last.sites place) ++
      [⟨path, .visitedBlock scope (first ++ [last])⟩,
        ⟨path, .visitedNode node⟩]) =
      (origins (before ++ last.sites place)).tail := by
    rw [origins_append]
    cases path with
    | nil => exact absurd rfl inside
    | cons step outer => rfl
  have value : (Expr.block scope (first ++ [last])).valueSite path =
      last.valueSite place := by
    rw [Expr.valueSite, backValueSite_append]
  rw [parts] at distinct takes ⊢
  rw [stack, value]
  have earlierDistinct := (List.nodup_append'.mp distinct).1
  by_cases displaced : last.BlockOrAssignment
  · have lost := gone displaced before place (List.cons_ne_nil _ _)
      earlierDistinct takes.init
    exact fun inTail => lost (List.mem_of_mem_tail inTail)
  · rcases operand.origins_eq displaced before place with ⟨rest, top⟩
    have values := origins_nodup earlierDistinct
    rw [top] at values ⊢
    exact (List.nodup_cons.mp values).1

/-- The value of a Block or of an assignment is not left on the stack. -/
theorem Expr.Operand.lost {expr : Expr} (operand : expr.Operand)
    (displaced : expr.BlockOrAssignment) {earlier : List Site} {path : Path}
    (inside : path ≠ []) (distinct : (earlier ++ expr.sites path).Nodup)
    (takes : Throughout Site.TakesSources (earlier ++ expr.sites path)) :
    expr.valueSite path ∉ origins (earlier ++ expr.sites path) := by
  induction operand generalizing earlier path with
  | literalInt32 value => exact displaced.elim
  | literalFloat value => exact displaced.elim
  | variableRef var => exact displaced.elim
  | binary operation left right leftIH rightIH => exact displaced.elim
  | assignVariable var assigned ih => exact assigned.assigned_lost distinct takes
  | block scope some each ih =>
      rcases (List.eq_nil_or_concat _).resolve_left some with ⟨first, last, rfl⟩
      rw [List.concat_eq_append] at each ih distinct takes ⊢
      have member : last ∈ first ++ [last] := by simp
      apply (each last member).last_lost inside distinct takes
      intro lastDisplaced before place below
      exact ih last member lastDisplaced below

/-- An operand is walked below its parent. -/
theorem Site.operandTrees_inside {site : Site} {operand : Expr × Path}
    (member : operand ∈ site.operandTrees) : operand.2 ≠ [] := by
  rcases site with ⟨path, callback⟩
  cases callback <;>
    simp only [Site.operandTrees, List.mem_cons, List.not_mem_nil,
      or_false] at member
  case visitedBinary =>
    rcases member with rfl | rfl <;> exact List.cons_ne_nil _ _
  all_goals
    subst member
    exact List.cons_ne_nil _ _

/-- A callback that takes the value of an operand has no such operand. -/
theorem Site.TakesSources.simple {owner : Module} {past future : List Site}
    {site : Site} (split : owner.sites = past ++ site :: future)
    (earlier : Throughout Site.TakesSources past)
    (takes : site.TakesSources past) {depth : Nat} {operand : Expr × Path}
    (found : site.operandTrees[depth]? = some operand)
    (built : operand.1.Operand) : ¬ operand.1.BlockOrAssignment := by
  intro displaced
  rcases Module.operandTrees_around split found with ⟨before, walked⟩
  have distinct := owner.sites_nodup
  rw [split] at distinct
  have pastDistinct := (List.nodup_append'.mp distinct).1
  rw [walked] at pastDistinct earlier
  have walkedDistinct := List.nodup_append'.mp pastDistinct
  have lost := built.lost displaced
    (Site.operandTrees_inside (List.mem_of_getElem? found)) walkedDistinct.1
    earlier.init
  have taken := List.mem_of_getElem? (takes depth operand found built)
  rw [walked] at taken
  rcases mem_origins_append taken with before | later
  · exact lost before
  · exact walkedDistinct.2.2
      (List.mem_append_right _ (built.valueSite_mem _)) later

/-! ## When operands are their own -/

/--
A callback takes the value of an operand that leaves its value on top if the operands
above it leave one value each.
-/
theorem Expr.Operand.source_iff {owner : Module} {past future : List Site}
    {site : Site} (split : owner.sites = past ++ site :: future)
    {depth : Nat} {operand : Expr × Path}
    (found : site.operandTrees[depth]? = some operand)
    (built : operand.1.Operand) (simple : ¬ operand.1.BlockOrAssignment) :
    (origins past)[depth]? = some (operand.1.valueSite operand.2) ↔
      ∀ above ∈ site.operandTrees.take depth,
        above.1.LeavesOneValue above.2 := by
  rcases Module.operandTrees_around split found with ⟨before, walked⟩
  have distinct := owner.sites_nodup
  rw [split] at distinct
  have pastDistinct := (List.nodup_append'.mp distinct).1
  rw [walked] at pastDistinct ⊢
  rcases built.origins_eq simple before operand.2 with ⟨rest, top⟩
  rw [origins_append, top]
  have fewer : depth = 0 ∨
      ∃ above, depth = 1 ∧ site.operandTrees.take depth = [above] := by
    have inside := (List.getElem?_eq_some_iff.mp found).1
    rcases site with ⟨path, callback⟩
    cases callback <;>
      simp only [Site.operandTrees, List.length_cons, List.length_nil] at inside
    case visitedBinary =>
      match depth, inside with
      | 0, _ => exact .inl rfl
      | 1, _ => exact .inr ⟨_, rfl, rfl⟩
    all_goals omega
  rcases fewer with rfl | ⟨above, rfl, single⟩
  · simp
  · rw [single] at pastDistinct ⊢
    simp only [List.reverse_singleton, List.flatMap_singleton,
      List.forall_mem_singleton] at pastDistinct ⊢
    have apart := List.nodup_append'.mp pastDistinct
    have values := origins_nodup apart.1
    rw [top] at values
    apply foldl_onStack_mark []
    · exact fun later => apart.2.2
        (List.mem_append_right _ (built.valueSite_mem _)) later
    · exact List.not_mem_nil
    · exact (List.nodup_cons.mp values).1

/--
The values a callback is about to take are those of its operands: each was pushed by
the callback that pushes the operand's own value.
-/
def TakesOwnOperands (past : List Site) (site : Site)
    (visitor : CodeGenVisitor) : Prop :=
  ∀ (depth : Nat) (operand : Expr × Path),
    site.operandTrees[depth]? = some operand → operand.1.Operand →
      (origins past)[depth]? = some (operand.1.valueSite operand.2) ∧
        ∃ value, visitor.valueStack_[depth]? = some value ∧
          PushedBy past (operand.1.valueSite operand.2) value

theorem Module.Reaches.takesOwnOperands_iff {owner : Module}
    {past : List Site} {site : Site} {visitor : CodeGenVisitor}
    (reached : owner.Reaches past site visitor) :
    TakesOwnOperands past site visitor ↔ site.TakesSources past := by
  constructor
  · intro own depth operand found built
    exact (own depth operand found built).1
  · intro takes depth operand found built
    have source := takes depth operand found built
    have pushed := reached.pushedBy
    rcases List.getElem?_eq_some_iff.mp source with ⟨inside, same⟩
    have below : depth < visitor.valueStack_.length :=
      pushed.length_eq ▸ inside
    refine ⟨source, visitor.valueStack_[depth], List.getElem?_eq_getElem below,
      ?_⟩
    rw [← same]
    exact pushed.get inside below

/--
Those operands that are built from what an operand may be built from are no Blocks
and no assignments, and the operands above them leave one value each.
-/
def Site.OperandsPlain (site : Site) : Prop :=
  ∀ (depth : Nat) (operand : Expr × Path),
    site.operandTrees[depth]? = some operand → operand.1.Operand →
      ¬ operand.1.BlockOrAssignment ∧
        ∀ above ∈ site.operandTrees.take depth,
          above.1.LeavesOneValue above.2

/-- What a walk has completed it has got to. -/
theorem Module.Reaches.completed {owner : Module} {past : List Site}
    {site : Site} {visitor : CodeGenVisitor}
    (reached : owner.Reaches past site visitor)
    {before after : List Site} {reader : Site}
    (split : past = before ++ reader :: after) :
    (∃ state, owner.Reaches before reader state) ∧
      Faultless predictedFault before ∧
        faultBeforeStack before reader = none := by
  rcases (codeGen_predicts owner).reached_iff.mp ⟨visitor, reached⟩ with
    ⟨⟨future, occurs⟩, smooth⟩
  have passes := smooth before reader after split
  rw [split] at smooth
  refine ⟨(codeGen_predicts owner).reached_iff.mpr
    ⟨⟨after ++ site :: future, by rw [occurs, split]; simp⟩, smooth.init⟩,
    smooth.init, ?_⟩
  unfold predictedFault at passes
  split at passes
  · cases passes
  · assumption

/--
Every Binary, assignment and Return of a walk takes the values of its own operands
exactly if none that the walk gets to has a Block or an assignment as an operand, and
the right operand of each Binary leaves one value.
-/
theorem operands_are_own_iff (owner : Module) :
    (∀ past site visitor, owner.Reaches past site visitor →
        faultBeforeStack past site = none →
          TakesOwnOperands past site visitor) ↔
      ∀ past site future, owner.sites = past ++ site :: future →
        Faultless predictedFault past → faultBeforeStack past site = none →
          site.OperandsPlain := by
  constructor
  · intro own past site future split smooth passes depth operand found built
    rcases (codeGen_predicts owner).reached_iff.mpr ⟨⟨future, split⟩, smooth⟩ with
      ⟨visitor, gets⟩
    have reached : owner.Reaches past site visitor := gets
    have takes := reached.takesOwnOperands_iff.mp
      (own past site visitor reached passes)
    have earlier : Throughout Site.TakesSources past := by
      intro before reader after parts
      rcases Module.Reaches.completed reached parts with
        ⟨⟨state, gets⟩, -, passes⟩
      exact gets.takesOwnOperands_iff.mp (own before reader state gets passes)
    have simple := Site.TakesSources.simple split earlier takes found built
    exact ⟨simple, (built.source_iff split found simple).mp
      (takes depth operand found built)⟩
  · intro plain past site visitor reached passes
    rcases reached.occurs with ⟨future, split⟩
    have smooth :=
      ((codeGen_predicts owner).reached_iff.mp ⟨visitor, reached⟩).2
    rw [reached.takesOwnOperands_iff]
    intro depth operand found built
    rcases plain past site future split smooth passes depth operand found built
      with ⟨simple, above⟩
    exact (built.source_iff split found simple).mpr above

/-- `return { 5; 6; }`, as `runInt32Expr` compiles it. -/
def returnOfBlock : Module :=
  let bb := (BlockBuilder.addExpression {} (.literalInt32 5)).addExpression
    (.literalInt32 6)
  ExprRunner.exprModule "ExprModule" ExprRunner.funcName
    (.return (bb.build .insertion)) .int32

/-- The value returned is that of the first expression of the Block. -/
theorem return_of_block_returns_first :
    ∃ final, walkTree codeGen returnOfBlock {} = .ok () final ∧
      final.module_.instructions.map Instruction.operation =
        [.ret (.constant (.int 5))] ∧
        ¬ ∀ past site visitor, returnOfBlock.Reaches past site visitor →
          faultBeforeStack past site = none →
            TakesOwnOperands past site visitor := by
  have completed : completedWith (fun final =>
      decide (final.module_.instructions.map Instruction.operation =
        [.ret (.constant (.int 5))])) (walkTree codeGen returnOfBlock {}) =
          true := by
    decide +kernel
  rcases exists_of_completedWith completed with ⟨final, completes, code⟩
  refine ⟨final, completes, of_decide_eq_true code, fun own => ?_⟩
  -- the eighteen callbacks before the Return takes its value
  have reached : ∃ visitor, Reached codeGen.performAt returnOfBlock.sites {}
      (returnOfBlock.sites.take 18) _ visitor :=
    reached_of_faultOf rfl (by decide +kernel)
  rcases reached with ⟨visitor, reached⟩
  have each : ∀ child ∈ [Expr.literalInt32 5, .literalInt32 6],
      child.Operand := by
    simp only [List.forall_mem_cons]
    exact ⟨.literalInt32 5, .literalInt32 6, by simp⟩
  have taken := (own _ _ visitor reached rfl 0 _ rfl
    (.block _ (List.cons_ne_nil _ _) each)).1
  injection taken with source
  injection source with _ literals
  injection literals with values
  exact absurd values (by decide)

end Llast
