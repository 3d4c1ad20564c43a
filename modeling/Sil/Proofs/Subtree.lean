import Mathlib
import Sil.Emission.Backend
import Sil.Proofs.LoweredCode

/-!
The nodes of a tree, and what a property of all of them says about the code of the tree. A phrase is
lowered from parts that are its own nodes or stand below them, so the property comes down to every
part.
-/
namespace Sil.Node

def children : Node → List Node
  | .program _ body => body
  | .declaration _ _ declarators => declarators
  | .declarator _ id init => id :: init.toList
  | .literal .. => []
  | .identifier .. => []
  | .binary _ _ left right => [left, right]
  | .logical _ _ left right => [left, right]
  | .assignment _ _ left right => [left, right]
  | .expression _ inner => [inner]
  | .block _ body => body
  | .conditional _ test consequent alternate => test :: consequent :: alternate.toList
  | .whileLoop _ test body => [test, body]
  | .forLoop _ init test update body => init.toList ++ test.toList ++ update.toList ++ [body]
  | .function _ id params body => id :: params ++ [body]
  | .ret _ argument => argument.toList
  | .foreign .. => []

/-- The nodes of a tree, its root among them. -/
inductive Subtree : Node → Node → Prop
  | root (n : Node) : Subtree n n
  | under {k m n : Node} (h : m ∈ n.children) (hk : Subtree k m) : Subtree k n

theorem Subtree.child {m n : Node} (h : m ∈ n.children) : Subtree m n := .under h (.root m)

theorem Subtree.trans {k m n : Node} (hk : Subtree k m) (hm : Subtree m n) : Subtree k n := by
  induction hm with
  | root => exact hk
  | under h _ ih => exact .under h ih

/-- What holds of all nodes of a tree holds of its root and of all nodes below it. -/
theorem forall_subtree {Q : Node → Prop} {n : Node} :
    (∀ m, Subtree m n → Q m) ↔ Q n ∧ ∀ k ∈ n.children, ∀ m, Subtree m k → Q m := by
  constructor
  · intro h
    exact ⟨h n (.root n), fun k hk m hm => h m (.under hk hm)⟩
  · rintro ⟨hroot, hbelow⟩ m hm
    cases hm with
    | root => exact hroot
    | under hk hm => exact hbelow _ hk m hm

/-- Whether a node is no literal, or one whose value is neither a list nor an object. -/
def isScalar : Node → Bool
  | .literal _ (.arr _) _ => false
  | .literal _ (.obj _) _ => false
  | _ => true

/-- Whether a node is no literal with an integer of too many digits to be written. -/
def isWritable : Node → Bool
  | .literal _ value _ => value.isWritable
  | _ => true

end Sil.Node

namespace Sil.Lowering
open Counters

def Phrase.Throughout (Q : Node → Prop) (p : Phrase) : Prop :=
  ∀ n ∈ p.nodes, ∀ m, Node.Subtree m n → Q m

/-- A part is lowered from a node of its phrase or from a child of one. -/
theorem Rule.part_nodes {f : Bool} {c c' : Counters} {p : Phrase} {pieces : List Piece}
    (rule : Rule f c p pieces c') :
    EachPart (fun t => ∀ m ∈ t.phrase.nodes, ∃ n ∈ p.nodes, m = n ∨ m ∈ n.children) pieces := by
  cases rule with
  | program | block | declaration =>
    exact ⟨fun m hm => ⟨_, List.mem_singleton_self _, .inr hm⟩, trivial⟩
  | forLoop =>
    simp only [EachPart, Phrase.nodes, Node.children, List.mem_singleton, exists_eq_left]
    simp only [List.mem_append]
    grind
  | endlessLoop =>
    simp only [EachPart, Phrase.nodes, Node.children, List.mem_singleton, exists_eq_left]
    simp only [List.mem_append]
    grind
  | function h =>
    rw [List.cons_append]
    refine (eachPart_own _ _).mpr ?_
    simp [EachPart, Phrase.nodes, Node.children]
  | cons =>
    exact ⟨fun m hm => ⟨m, by simp_all [Phrase.nodes], .inl rfl⟩,
      fun m hm => ⟨m, List.mem_cons_of_mem _ hm, .inl rfl⟩, trivial⟩
  | _ => simp [EachPart, Phrase.nodes, Node.children]

/-- The parts of a phrase are made of its own nodes and those below them. -/
theorem Rule.throughout {Q : Node → Prop} {f : Bool} {c c' : Counters} {p : Phrase}
    {pieces : List Piece} (rule : Rule f c p pieces c') (h : p.Throughout Q) :
    EachPart (fun t => t.phrase.Throughout Q) pieces := by
  refine eachPart_iff.mpr fun t ht m hm k hk => ?_
  obtain ⟨n, hn, rfl | hchild⟩ := eachPart_iff.mp rule.part_nodes t ht m hm
  · exact h m hn k hk
  · exact h n hn k (.under hchild hk)

/-- What the rules make of nodes with a property holds of all code that is lowered from such
nodes. -/
theorem Lowers.forall_code_throughout {Q : Node → Prop} {P : Instruction → Prop}
    (own : ∀ {f c p pieces c'}, Rule f c p pieces c' → EachPart Lowers pieces → p.Throughout Q →
      EachOwn P pieces)
    {s : Segment} (h : Lowers s) (hs : s.phrase.Throughout Q) : ∀ i ∈ s.code, P i := by
  induction h with
  | intro rule parts ih =>
    intro i hi
    obtain hi | ⟨t, ht, hi⟩ := mem_codeOf.mp hi
    · exact eachOwn_iff.mp (own rule (eachPart_iff.mpr parts) hs) i hi
    · exact ih t ht (eachPart_iff.mp (rule.throughout hs) t ht) i hi

/-- A property of operands that names have, and literals if the nodes they come from have
another. -/
structure OperandLaw (Q : Node → Prop) (P : Operand → Prop) : Prop where
  var : ∀ x : String, P (.var x)
  temp : ∀ k, P (.temp (tempName k))
  literal : ∀ loc v raw spelling, Q (.literal loc v raw) → P (.const v spelling)

section
variable {Q : Node → Prop} {P : Operand → Prop} (law : OperandLaw Q P)
include law

theorem OperandLaw.value {f : Bool} {c c' : Counters} {n : Node} {value : Operand}
    {code : List Instruction} (h : Lowers ⟨f, c, .expr n value, code, c'⟩)
    (hn : (Phrase.expr n value).Throughout Q) : P value := by
  have hroot : Q n := hn n (List.mem_singleton_self n) n (.root n)
  rcases value_cases h with ⟨loc, v, raw, spelling, rfl, rfl⟩ | ⟨x, -, rfl⟩ | ⟨k, -, rfl⟩
  · exact law.literal loc v raw spelling hroot
  · exact law.var x
  · exact law.temp k

theorem OperandLaw.own {f c p pieces c'} (rule : Rule f c p pieces c')
    (parts : EachPart Lowers pieces) (hp : p.Throughout Q) :
    EachOwn (fun i => ∀ o ∈ i.operands, P o) pieces := by
  have hparts := rule.throughout hp
  cases rule with
  | function h =>
    refine ⟨by simp [Instruction.func], (eachOwn_map_own _ _).mpr ⟨fun i hi => ?_, ?_, trivial⟩⟩
    · obtain ⟨loc, name, -, rfl⟩ := parameters_eq_ok h i hi
      simp [Instruction.param]
    · simp [Instruction.endFunc]
  | logical h =>
    have hleft := law.value parts.1 hparts.1
    have hright := law.value parts.2.1 hparts.2.1
    obtain ⟨-, rfl⟩ | ⟨-, rfl⟩ := shortCut?_eq_some.mp h <;>
      simp [EachOwn, Instruction.mov, Instruction.cmp, Instruction.jumpIfFalse,
        Instruction.jumpIfTrue, Instruction.jump, Instruction.mark, hleft, hright]
  | binary =>
    have hleft := law.value parts.1 hparts.1
    have hright := law.value parts.2.1 hparts.2.1
    simp [EachOwn, Instruction.binary, hleft, hright]
  | forLoop =>
    simp [EachOwn, Instruction.cmp, Instruction.jumpIfFalse, Instruction.jump, Instruction.mark,
      law.value parts.2.1 hparts.2.1]
  | assignment | initialise | conditional | alternative | whileLoop | retValue =>
    simp [EachOwn, Instruction.mov, Instruction.decl, Instruction.cmp, Instruction.jumpIfFalse,
      Instruction.jump, Instruction.mark, Instruction.ret, law.value parts.1 hparts.1]
  | _ => simp [EachOwn, Instruction.decl, Instruction.jump, Instruction.mark, Instruction.ret]

end

/-- All operands of lowered code obey a law that the nodes under it obey. -/
theorem OperandLaw.forall_operands {Q : Node → Prop} {P : Operand → Prop} (law : OperandLaw Q P)
    {s : Segment} (h : Lowers s) (hs : s.phrase.Throughout Q) :
    ∀ i ∈ s.code, ∀ o ∈ i.operands, P o :=
  h.forall_code_throughout law.own hs

/-- Code that is lowered from writable literals can be written in every target language. -/
theorem lowers_spellable {s : Segment} (h : Lowers s) (hs : s.phrase.Throughout (·.isWritable)) :
    ∀ i ∈ s.code, i.isSpellable := by
  have law : OperandLaw (fun n => n.isWritable = true) (fun o => o.isSpellable = true) :=
    ⟨fun _ => rfl, fun _ => rfl, fun _ _ _ _ hwritable => hwritable⟩
  intro i hi
  exact List.all_eq_true.mpr (law.forall_operands h hs i hi)

end Sil.Lowering
