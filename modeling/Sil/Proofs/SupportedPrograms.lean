import Mathlib
import Sil.Proofs.InputAgreement
import Sil.Proofs.Refusals
import Sil.Proofs.Temporaries

/-!
The programs that lowering accepts. A node is judged by the place in which it stands: statements are
of a supported kind, expressions compute a value, names are identifiers. Lowering visits the nodes
of a tree in one order and fails at the first one whose place does not allow it; a tree without such
a node is accepted.
-/
namespace Sil

def Node.operator? : Node → Option String
  | .binary _ operator _ _ | .logical _ operator _ _ | .assignment _ operator _ _ => some operator
  | _ => none

namespace Lowering

/-- What a node stands for: a part that is lowered, the name of what is declared, or an assigned
variable, with the place of its assignment. -/
inductive Place where
  | part (role : Role)
  | name
  | target (owner : Option Location)

/-- The nodes that spell what another node declares or assigns. -/
def spelled : Node → List (Place × Node)
  | .declarator _ id _ => [(.name, id)]
  | .function _ id params _ => (id :: params).map (.name, ·)
  | .assignment loc _ left _ => [(.target loc, left)]
  | _ => []

/-- The nodes right below a node with their places, in the order in which they are checked. -/
def places (n : Node) : List (Place × Node) :=
  spelled n ++ (parts n).map fun part => (.part part.1, part.2)

/-- The nodes of a tree with their places. The whole tree is a statement. -/
inductive Stands (tree : Node) : Place → Node → Prop
  | root : Stands tree (.part .statement) tree
  | under {place place' : Place} {m n : Node} (h : Stands tree place m)
      (hn : (place', n) ∈ places m) :
    Stands tree place' n

def binaryOperators : List String := ["+", "-", "*", "/", "<", ">", "<=", ">=", "==", "!="]

def logicalOperators : List String := ["&&", "||"]

def IsExpression : Node → Prop
  | .literal .. | .identifier .. | .binary .. | .logical .. | .assignment .. => True
  | _ => False

def IsIdentifier : Node → Prop
  | .identifier .. => True
  | _ => False

/-- The supported programs. A statement may be of each of the fifteen kinds that have a constructor
of their own. -/
structure IsSupported (tree : Node) : Prop where
  statement : ∀ n, Stands tree (.part .statement) n → ∀ loc kind, n ≠ .foreign loc kind
  expression : ∀ n, Stands tree (.part .expression) n → IsExpression n
  name : ∀ n, Stands tree .name n → IsIdentifier n
  target : ∀ loc n, Stands tree (.target loc) n → IsIdentifier n
  binary : ∀ loc operator left right, Node.Subtree (.binary loc operator left right) tree →
    operator ∈ binaryOperators
  logical : ∀ loc operator left right, Node.Subtree (.logical loc operator left right) tree →
    operator ∈ logicalOperators
  assignment : ∀ loc operator left right, Node.Subtree (.assignment loc operator left right) tree →
    operator = "="
  function : ∀ loc id params body, Node.Subtree (.function loc id params body) tree →
    ∀ loc' id' params' body', ¬ Node.Subtree (.function loc' id' params' body') body

/-- Whether lowering stays within its room: no chain of parts is longer. -/
def FitsIn : Nat → Node → Prop
  | 0, _ => False
  | room + 1, n => ∀ part ∈ parts n, FitsIn room part.2

instance decidableFitsIn : (room : Nat) → (n : Node) → Decidable (FitsIn room n)
  | 0, _ => .isFalse id
  | room + 1, n =>
    have := fun part : Role × Node => decidableFitsIn room part.2
    inferInstanceAs (Decidable (∀ part ∈ parts n, FitsIn room part.2))

/-- A node in its place, and whether a function encloses it. -/
structure Visit where
  place : Place
  inFunction : Bool
  node : Node

namespace Visit

/-- What is visited right below a node. Nothing is looked for inside a name. -/
def below (v : Visit) : List Visit :=
  match v.place with
  | .part _ =>
    ((spelled v.node).map fun p => ⟨p.1, v.inFunction, p.2⟩) ++
      (parts v.node).map fun part => ⟨.part part.1, within v.inFunction v.node, part.2⟩
  | _ => []

/-- The error for a node that may not stand where it stands. -/
def objection (v : Visit) : Option Error :=
  match v.place, v.node with
  | .name, .identifier .. | .target _, .identifier .. => none
  | .name, n => some (.unsupportedConstruct n.kind n.loc "")
  | .target owner, n => some (.invalidTarget n.kind (n.loc <|> owner))
  | .part _, .literal .. | .part _, .identifier .. => none
  | .part _, .binary loc operator _ _ =>
    if operator ∈ binaryOperators then none
    else some (.unsupportedOperator operator "BinaryExpression" loc)
  | .part _, .logical loc operator _ _ =>
    if operator ∈ logicalOperators then none
    else some (.unsupportedOperator operator "LogicalExpression" loc)
  | .part _, .assignment loc operator _ _ =>
    if operator = "=" then none
    else some (.unsupportedOperator operator "AssignmentExpression" loc)
  | .part _, .foreign loc kind => some (.unsupportedConstruct kind loc "")
  | .part .expression, n => some (.unsupportedConstruct n.kind n.loc "")
  | .part .statement, .function loc _ _ _ =>
    if v.inFunction then
      some (.unsupportedConstruct "FunctionDeclaration" loc "nested inside a function")
    else none
  | .part .statement, _ => none

end Visit

/-- The children of a node are the nodes that have a place below it. -/
theorem mem_children_iff {m n : Node} : m ∈ n.children ↔ ∃ place, (place, m) ∈ places n := by
  have hsecond : (∃ place, (place, m) ∈ places n) ↔ m ∈ (places n).map Prod.snd := by simp
  rw [hsecond]
  cases n <;> simp [Node.children, places, spelled, parts]
  tauto

namespace Visit

theorem mem_places_of_mem_below {v w : Visit} (h : w ∈ v.below) :
    (w.place, w.node) ∈ places v.node := by
  obtain ⟨place, f, n⟩ := v
  cases place with
  | part role =>
    obtain hw | hw := List.mem_append.mp h
    · obtain ⟨p, hp, rfl⟩ := List.mem_map.mp hw
      exact List.mem_append_left _ hp
    · obtain ⟨part, hpart, rfl⟩ := List.mem_map.mp hw
      exact List.mem_append_right _ (List.mem_map_of_mem hpart)
  | name | target => cases h

theorem mem_children_of_mem_below {v w : Visit} (h : w ∈ v.below) : w.node ∈ v.node.children :=
  mem_children_iff.mpr ⟨w.place, mem_places_of_mem_below h⟩

/-- A visit and all visits below it, in the order in which lowering makes them. -/
def all (v : Visit) : List Visit :=
  v :: v.below.attach.flatMap fun w =>
    have := Node.sizeOf_lt_of_mem_children (mem_children_of_mem_below w.2)
    w.1.all
termination_by sizeOf v.node

theorem all_eq (v : Visit) : v.all = v :: v.below.flatMap all := by
  rw [all, List.flatMap_subtype (g := all) fun w hw => rfl, List.unattach_attach]

theorem mem_all_self (v : Visit) : v ∈ v.all := by
  rw [all_eq]
  exact List.mem_cons_self

/-- What holds of the first visit and goes down from each visit to those below it holds of all. -/
theorem forall_mem_all {P : Visit → Prop} (hstep : ∀ v w, w ∈ v.below → P v → P w) (v : Visit)
    (hv : P v) : ∀ w ∈ v.all, P w := by
  intro w hw
  rw [all_eq] at hw
  obtain rfl | hw := List.mem_cons.mp hw
  · exact hv
  · obtain ⟨u, hu, hw⟩ := List.mem_flatMap.mp hw
    have := Node.sizeOf_lt_of_mem_children (mem_children_of_mem_below hu)
    exact forall_mem_all hstep u (hstep v u hu hv) w hw
termination_by sizeOf v.node

theorem mem_all_of_mem_below {v w : Visit} (hw : w ∈ v.below) (u : Visit) (hv : v ∈ u.all) :
    w ∈ u.all := by
  rw [all_eq] at hv ⊢
  apply List.mem_cons_of_mem
  obtain rfl | hv := List.mem_cons.mp hv
  · exact List.mem_flatMap.mpr ⟨w, hw, mem_all_self w⟩
  · obtain ⟨k, hk, hv⟩ := List.mem_flatMap.mp hv
    have := Node.sizeOf_lt_of_mem_children (mem_children_of_mem_below hk)
    exact List.mem_flatMap.mpr ⟨k, hk, mem_all_of_mem_below hw k hv⟩
termination_by sizeOf u.node

end Visit

/-- All errors for nodes that may not stand where they stand, in the order of the visits. -/
def objections (v : Visit) : List Error := v.all.filterMap Visit.objection

theorem objections_eq (v : Visit) :
    objections v = v.objection.toList ++ v.below.flatMap objections := by
  rw [objections, Visit.all_eq, List.filterMap_cons, List.filterMap_flatMap]
  cases v.objection <;> rfl

/-- Two lists of lists whose members begin alike begin alike. -/
theorem head?_flatMap_congr {α β : Type} {xs : List α} {f g : α → List β}
    (h : ∀ a ∈ xs, (f a).head? = (g a).head?) : (xs.flatMap f).head? = (xs.flatMap g).head? := by
  induction xs with
  | nil => rfl
  | cons a xs ih =>
    have hrest := ih fun b hb => h b (List.mem_cons_of_mem _ hb)
    rw [List.flatMap_cons, List.flatMap_cons, List.head?_append, List.head?_append,
      h a List.mem_cons_self, hrest]

theorem isSome_ofSymbol?_iff {operator : String} :
    (BinaryOp.ofSymbol? operator).isSome ↔ operator ∈ binaryOperators := by
  have hsymbols : BinaryOp.all.map BinaryOp.symbol = binaryOperators := by decide
  simp [BinaryOp.ofSymbol?, List.find?_isSome, ← hsymbols]

theorem isSome_shortCut?_iff {operator : String} :
    (shortCut? operator).isSome ↔ operator ∈ logicalOperators := by
  rw [Option.isSome_iff_exists]
  simp only [shortCut?_eq_some, logicalOperators, List.mem_cons, List.not_mem_nil, or_false]
  constructor
  · rintro ⟨skip, ⟨h, -⟩ | ⟨h, -⟩⟩
    · exact .inl h
    · exact .inr h
  · rintro (h | h)
    · exact ⟨_, .inl ⟨h, rfl⟩⟩
    · exact ⟨_, .inr ⟨h, rfl⟩⟩

theorem objections_name (inFunction : Bool) (n : Node) :
    objections ⟨.name, inFunction, n⟩ = nameRefusals n := by
  rw [objections_eq]
  cases n <;> rfl

theorem objections_target (loc : Option Location) (inFunction : Bool) (n : Node) :
    objections ⟨.target loc, inFunction, n⟩ =
      if (nameRefusals n).isEmpty then [] else [.invalidTarget n.kind (n.loc <|> loc)] := by
  rw [objections_eq]
  cases n <;> rfl

/-- What a node is refused for by itself begins with the objection to it, or else with the first one
to a name that it spells. -/
theorem head?_ownRefusals {inFunction : Bool} {role : Role} {n : Node}
    (hliteral : ∀ loc value, n = .literal loc value "" → value.isWritable) :
    (ownRefusals inFunction role n).head? =
      ((Visit.mk (.part role) inFunction n).objection.toList ++
        (spelled n).flatMap fun p => objections ⟨p.1, inFunction, p.2⟩).head? := by
  cases n with
  | literal loc value raw =>
    have hvalue : ¬ (raw = "" ∧ value.isWritable = false) := by
      rintro ⟨rfl, hvalue⟩
      rw [hliteral loc value rfl] at hvalue
      cases hvalue
    simp [ownRefusals, hvalue, Visit.objection, spelled]
  | binary loc operator left right =>
    by_cases h : operator ∈ binaryOperators <;>
      simp [ownRefusals, isSome_ofSymbol?_iff, h, Visit.objection, spelled]
  | logical loc operator left right =>
    by_cases h : operator ∈ logicalOperators <;>
      simp [ownRefusals, isSome_shortCut?_iff, h, Visit.objection, spelled]
  | assignment loc operator left right =>
    by_cases h : operator = "=" <;>
      simp [ownRefusals, h, Visit.objection, spelled, objections_target]
  | declarator loc id init =>
    cases role <;> simp [ownRefusals, Visit.objection, spelled, objections_name, Node.kind,
      Node.loc]
  | function loc id params body =>
    cases role <;> cases inFunction <;>
      simp [ownRefusals, Visit.objection, spelled, objections_name, Node.kind, Node.loc,
        List.flatMap_map]
  | _ => cases role <;> rfl

/-- Lowering first stops at the first objection if the tree fits and its literals can be written. -/
theorem head?_refusals {room : Nat} {n : Node} (hfits : FitsIn room n)
    (hliteral : ∀ loc value, Node.Subtree (.literal loc value "") n → value.isWritable)
    (inFunction : Bool) (role : Role) :
    (refusals room inFunction role n).head? = (objections ⟨.part role, inFunction, n⟩).head? := by
  induction room generalizing n inFunction role with
  | zero => exact hfits.elim
  | succ room ih =>
    have hown : (ownRefusals inFunction role n).head? = _ :=
      head?_ownRefusals fun loc value h => hliteral loc value (h ▸ .root n)
    have hparts : ((parts n).flatMap fun part =>
          refusals room (within inFunction n) part.1 part.2).head? =
        ((parts n).flatMap fun part =>
          objections ⟨.part part.1, within inFunction n, part.2⟩).head? := by
      apply head?_flatMap_congr
      intro part hpart
      have hchild : part.2 ∈ n.children :=
        mem_children_iff.mpr ⟨_, List.mem_append_right _ (List.mem_map_of_mem hpart)⟩
      exact ih (hfits part hpart) (fun loc value h => hliteral loc value (.under hchild h)) _ _
    rw [refusals, List.head?_append, hown, hparts, ← List.head?_append, objections_eq, Visit.below,
      List.flatMap_append, List.flatMap_map, List.flatMap_map, List.append_assoc]

def visits (tree : Node) : List Visit := (Visit.mk (.part .statement) false tree).all

/-- A visited node stands where it is visited. -/
theorem stands_of_mem_visits {tree : Node} : ∀ v ∈ visits tree, Stands tree v.place v.node := by
  refine Visit.forall_mem_all (fun v w hw hv => ?_) _ .root
  exact hv.under (Visit.mem_places_of_mem_below hw)

/-- Going down, one enters a function only from its node to its body. -/
theorem Visit.inFunction_of_mem_below {v w : Visit} (h : w ∈ v.below) :
    w.inFunction = v.inFunction ∨
      w.inFunction ∧ ∃ loc id params, v.node = .function loc id params w.node := by
  obtain ⟨place, f, n⟩ := v
  cases place with
  | part role =>
    obtain hw | hw := List.mem_append.mp h
    · obtain ⟨p, hp, rfl⟩ := List.mem_map.mp hw
      exact .inl rfl
    · obtain ⟨part, hpart, rfl⟩ := List.mem_map.mp hw
      cases n with
      | function loc id params body =>
        obtain rfl := List.mem_singleton.mp hpart
        exact .inr ⟨rfl, loc, id, params, rfl⟩
      | _ => exact .inl rfl
  | name | target => cases h

/-- A node that is visited inside a function lies in the body of one. -/
theorem exists_function_of_mem_visits {tree : Node} : ∀ v ∈ visits tree,
    Node.Subtree v.node tree ∧ (v.inFunction → ∃ loc id params body,
      Node.Subtree (.function loc id params body) tree ∧ Node.Subtree v.node body) := by
  refine Visit.forall_mem_all (fun v w hw hv => ?_) _ ⟨.root tree, fun h => by cases h⟩
  obtain ⟨htree, hfunction⟩ := hv
  have hchild := Node.Subtree.child (Visit.mem_children_of_mem_below hw)
  refine ⟨hchild.trans htree, fun hinside => ?_⟩
  obtain heq | ⟨-, loc, id, params, hv⟩ := Visit.inFunction_of_mem_below hw
  · obtain ⟨loc, id, params, body, hnode, hbody⟩ := hfunction (heq ▸ hinside)
    exact ⟨loc, id, params, body, hnode, hchild.trans hbody⟩
  · exact ⟨loc, id, params, w.node, hv ▸ htree, .root _⟩

/-- Below a node that nothing is objected to, every place is visited: a name without parts is all
that is passed over. -/
theorem Visit.exists_mem_below {v : Visit} (h : v.objection = none) {place : Place} {m : Node}
    (hm : (place, m) ∈ places v.node) : ∃ w ∈ v.below, w.place = place ∧ w.node = m := by
  obtain ⟨place', f, n⟩ := v
  cases place' with
  | part role =>
    obtain hm | hm := List.mem_append.mp hm
    · exact ⟨_, List.mem_append_left _ (List.mem_map_of_mem hm), rfl, rfl⟩
    · obtain ⟨part, hpart, heq⟩ := List.mem_map.mp hm
      cases heq
      exact ⟨_, List.mem_append_right _ (List.mem_map_of_mem hpart), rfl, rfl⟩
  | name | target =>
    cases n with
    | identifier => cases hm
    | _ => cases h

section Accepted

variable {tree : Node} (haccepted : ∀ v ∈ visits tree, v.objection = none)
include haccepted

/-- In a tree without objections, each node is visited in its place. -/
theorem exists_visit_of_stands {place : Place} {n : Node} (h : Stands tree place n) :
    ∃ v ∈ visits tree, v.place = place ∧ v.node = n := by
  induction h with
  | root => exact ⟨_, Visit.mem_all_self _, rfl, rfl⟩
  | under _ hn ih =>
    obtain ⟨v, hv, -, rfl⟩ := ih
    obtain ⟨w, hw, hplace, hnode⟩ := Visit.exists_mem_below (haccepted v hv) hn
    exact ⟨w, Visit.mem_all_of_mem_below hw _ hv, hplace, hnode⟩

/-- In a tree without objections, whatever lies below a visited node is visited too, and inside a
function if the node is. -/
theorem exists_visit_of_subtree {m n : Node} (h : Node.Subtree m n) {v : Visit}
    (hv : v ∈ visits tree) (hnode : v.node = n) :
    ∃ w ∈ visits tree, w.node = m ∧ (v.inFunction → w.inFunction) := by
  induction h generalizing v with
  | root => exact ⟨v, hv, hnode, id⟩
  | under hchild _ ih =>
    subst hnode
    obtain ⟨place, hplace⟩ := mem_children_iff.mp hchild
    obtain ⟨k, hk, -, hknode⟩ := Visit.exists_mem_below (haccepted v hv) hplace
    obtain ⟨w, hw, hwnode, hinside⟩ := ih (Visit.mem_all_of_mem_below hk _ hv) hknode
    refine ⟨w, hw, hwnode, fun hf => hinside ?_⟩
    obtain heq | ⟨hfunction, -⟩ := Visit.inFunction_of_mem_below hk
    · exact heq ▸ hf
    · exact hfunction

/-- The nodes of a tree without objections are all visited as parts or identifiers. -/
theorem objection_none_of_subtree {n : Node} (h : Node.Subtree n tree) :
    ∃ place f, Visit.objection ⟨place, f, n⟩ = none := by
  obtain ⟨v, hv, rfl, -⟩ := exists_visit_of_subtree haccepted h (Visit.mem_all_self _) rfl
  exact ⟨v.place, v.inFunction, haccepted v hv⟩

/-- In a tree without objections no function lies in the body of another. -/
theorem not_subtree_function_body {loc loc' : Option Location} {id id' body body' : Node}
    {params params' : List Node} (h : Node.Subtree (.function loc id params body) tree) :
    ¬ Node.Subtree (.function loc' id' params' body') body := by
  intro hinner
  obtain ⟨⟨place, f, n⟩, hv, rfl, -⟩ :=
    exists_visit_of_subtree haccepted h (Visit.mem_all_self _) rfl
  have hv' := haccepted _ hv
  cases place with
  | part role =>
    have hbody : ⟨.part .statement, true, body⟩ ∈
        Visit.below ⟨.part role, f, .function loc id params body⟩ :=
      List.mem_append_right _ List.mem_cons_self
    obtain ⟨⟨place', f', n'⟩, hw, rfl, hinside⟩ :=
      exists_visit_of_subtree haccepted hinner (Visit.mem_all_of_mem_below hbody _ hv) rfl
    obtain rfl : f' = true := hinside rfl
    have hw' := haccepted _ hw
    cases place' with
    | part role' => cases role' <;> cases hw'
    | name | target => cases hw'
  | name | target => cases hv'

end Accepted

/-- Nothing is objected to a part of a supported program. -/
theorem IsSupported.part_objection_none {tree n : Node} (h : IsSupported tree) {role : Role}
    {f : Bool} (hstands : Stands tree (.part role) n) (htree : Node.Subtree n tree)
    (hfunction : f → ∃ loc id params body,
      Node.Subtree (.function loc id params body) tree ∧ Node.Subtree n body) :
    Visit.objection ⟨.part role, f, n⟩ = none := by
  cases n with
  | literal | identifier => rfl
  | binary loc operator left right => exact if_pos (h.binary _ _ _ _ htree)
  | logical loc operator left right => exact if_pos (h.logical _ _ _ _ htree)
  | assignment loc operator left right => exact if_pos (h.assignment _ _ _ _ htree)
  | foreign loc kind =>
    cases role with
    | expression => exact (h.expression _ hstands).elim
    | statement => exact absurd rfl (h.statement _ hstands loc kind)
  | function loc id params body =>
    cases role with
    | expression => exact (h.expression _ hstands).elim
    | statement =>
      have houter : ¬ f := by
        intro hf
        obtain ⟨_, _, _, outerBody, houter, hinner⟩ := hfunction hf
        exact h.function _ _ _ _ houter _ _ _ _ hinner
      exact if_neg houter
  | _ =>
    cases role with
    | expression => exact (h.expression _ hstands).elim
    | statement => rfl

/-- The supported programs are those to which nothing is objected on any visit. -/
theorem isSupported_iff (tree : Node) :
    IsSupported tree ↔ ∀ v ∈ visits tree, v.objection = none := by
  constructor
  · intro h v hv
    have hstands := stands_of_mem_visits v hv
    obtain ⟨htree, hfunction⟩ := exists_function_of_mem_visits v hv
    obtain ⟨place, f, n⟩ := v
    cases place with
    | part role => exact h.part_objection_none hstands htree hfunction
    | name =>
      have hname := h.name n hstands
      cases n with
      | identifier => rfl
      | _ => exact hname.elim
    | target loc =>
      have htarget := h.target loc n hstands
      cases n with
      | identifier => rfl
      | _ => exact htarget.elim
  · intro h
    have hplace {place : Place} {n : Node} (hn : Stands tree place n) :
        ∃ f, Visit.objection ⟨place, f, n⟩ = none := by
      obtain ⟨v, hv, rfl, rfl⟩ := exists_visit_of_stands h hn
      exact ⟨v.inFunction, h v hv⟩
    refine { statement := ?_, expression := ?_, name := ?_, target := ?_, binary := ?_,
             logical := ?_, assignment := ?_,
             function := fun _ _ _ _ hn _ _ _ _ => not_subtree_function_body h hn }
    · rintro n hn loc kind rfl
      obtain ⟨f, hf⟩ := hplace hn
      cases hf
    · intro n hn
      obtain ⟨f, hf⟩ := hplace hn
      cases n with
      | literal | identifier | binary | logical | assignment => trivial
      | _ => cases hf
    · intro n hn
      obtain ⟨f, hf⟩ := hplace hn
      cases n with
      | identifier => trivial
      | _ => cases hf
    · intro loc n hn
      obtain ⟨f, hf⟩ := hplace hn
      cases n with
      | identifier => trivial
      | _ => cases hf
    · intro loc operator left right hn
      obtain ⟨place, f, hf⟩ := objection_none_of_subtree h hn
      cases place <;> simp_all [Visit.objection]
    · intro loc operator left right hn
      obtain ⟨place, f, hf⟩ := objection_none_of_subtree h hn
      cases place <;> simp_all [Visit.objection]
    · intro loc operator left right hn
      obtain ⟨place, f, hf⟩ := objection_none_of_subtree h hn
      cases place <;> simp_all [Visit.objection]

/-- An error names the kind of a node, or an operator together with the kind it belongs to. -/
def Blames (n : Node) : Error → Prop
  | .unsupportedConstruct kind loc _ => kind = n.kind ∧ loc = n.loc
  | .unsupportedOperator operator kind loc =>
    n.operator? = some operator ∧ kind = n.kind ∧ loc = n.loc
  | .invalidTarget kind _ => kind = n.kind
  | _ => False

theorem Visit.blames_of_objection {v : Visit} {e : Error} (h : v.objection = some e) :
    Blames v.node e := by
  obtain ⟨place, f, n⟩ := v
  unfold objection at h
  dsimp only at h ⊢
  -- One case for each line of `objection`, in its order.
  split at h
  · cases h
  · cases h
  · cases h
    exact ⟨rfl, rfl⟩
  · cases h
    exact rfl
  · cases h
  · cases h
  · split at h <;> cases h
    exact ⟨rfl, rfl, rfl⟩
  · split at h <;> cases h
    exact ⟨rfl, rfl, rfl⟩
  · split at h <;> cases h
    exact ⟨rfl, rfl, rfl⟩
  · cases h
    exact ⟨rfl, rfl⟩
  · cases h
    exact ⟨rfl, rfl⟩
  · split at h <;> cases h
    exact ⟨rfl, rfl⟩
  · cases h

end Lowering

open Lowering

/-- Of the trees that are not too deep and whose literals can be written, lowering accepts exactly
the supported programs. Any other one is refused with the error for the first node, in the order of
lowering, that may not stand in its place. A node of a foreign kind is never passed over. -/
theorem lowering_accepts_supported (limits : Limits) (tree : Node) :
    (FitsIn limits.lowering tree →
      (∀ loc value, Node.Subtree (.literal loc value "") tree → value.isWritable) →
      ((∃ code, tree.lower limits = .ok code) ↔ IsSupported tree) ∧
      ∀ e, tree.lower limits = .error e ↔ ∃ earlier v later, visits tree = earlier ++ v :: later ∧
        (∀ u ∈ earlier, u.objection = none) ∧ v.objection = some e ∧ Blames v.node e) ∧
    ∀ loc kind, Node.Subtree (.foreign loc kind) tree → ∀ code, tree.lower limits ≠ .ok code := by
  refine ⟨fun hfits hliteral => ?_, fun loc kind hforeign code hcode =>
    no_foreign_of_lower hcode loc kind hforeign⟩
  have hstops := lower_stopsAt limits tree
  have hhead : (tree.refusals limits).head? = (visits tree).findSome? Visit.objection := by
    rw [← List.head?_filterMap]
    exact head?_refusals hfits hliteral false .statement
  constructor
  · rw [hstops.ok_iff, isSupported_iff, ← List.findSome?_eq_none_iff, ← hhead,
      List.head?_eq_none_iff]
  · intro e
    rw [hstops.eq_error_iff, hhead, List.findSome?_eq_some_iff]
    constructor
    · rintro ⟨earlier, v, later, hvisits, hv, hearlier⟩
      exact ⟨earlier, v, later, hvisits, hearlier, hv, Visit.blames_of_objection hv⟩
    · rintro ⟨earlier, v, later, hvisits, hearlier, hv, -⟩
      exact ⟨earlier, v, later, hvisits, hv, hearlier⟩

/-- `function f(a) { for (;;) { return a && true; } }` -/
def endlessFunction : Node :=
  .program none [.function none (.identifier none "f") [.identifier none "a"]
    (.block none [.forLoop none none none none
      (.block none [.ret none (some
        (.logical none "&&" (.identifier none "a") (.literal none (.bool true) "")))])])]

/-- `function f() { function g() {} x += 1; }` -/
def functionInFunction : Node :=
  .program none [.function none (.identifier none "f") []
    (.block none [.function none (.identifier none "g") [] (.block none []),
      .expression none
      (.assignment none "+=" (.identifier none "x") (.literal none (.int 1) "1"))])]

theorem endlessFunction_accepted_functionInFunction_refused :
    IsSupported endlessFunction ∧ ¬ IsSupported functionInFunction ∧
    ∃ earlier v later, visits functionInFunction = earlier ++ v :: later ∧
      (∀ u ∈ earlier, u.objection = none) ∧
      v.objection =
        some (.unsupportedConstruct "FunctionDeclaration" none "nested inside a function") ∧
      Blames v.node
        (.unsupportedConstruct "FunctionDeclaration" none "nested inside a function") := by
  have hendless := (lowering_accepts_supported {} endlessFunction).1 (by decide) (by
    intro loc value h
    simp_all [← Node.mem_preorder, endlessFunction, Node.preorder, Node.preorderAll,
      Node.preorderSome, Json.isWritable])
  have hnested := (lowering_accepts_supported {} functionInFunction).1 (by decide) (by
    intro loc value h
    simp_all [← Node.mem_preorder, functionInFunction, Node.preorder, Node.preorderAll])
  have hrefused : functionInFunction.lower {} =
    .error (.unsupportedConstruct "FunctionDeclaration" none "nested inside a function") := rfl
  refine ⟨hendless.1.mp ⟨_, rfl⟩, ?_, (hnested.2 _).mp hrefused⟩
  rw [← hnested.1, hrefused]
  rintro ⟨code, hcode⟩
  cases hcode

end Sil
