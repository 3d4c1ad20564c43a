import Mathlib
import Sil.Proofs.Temporaries

/-!
How much code a tree gives. Every node adds a fixed list of operations to the code of its parts, and
lowering comes to each node exactly once. So the operations of the code are those of the nodes, in
another order: nothing is lowered twice and nothing is left out. Main result:
`lowering_conserves_work` reads off how often each operation occurs, and where the two counters end.
-/
namespace Sil

theorem BinaryOp.ofSymbol?_eq_some {operator : String} {op : BinaryOp} :
    ofSymbol? operator = some op ↔ operator = op.symbol := by
  constructor
  · intro h
    have hsymbol := List.find?_some h
    exact (beq_iff_eq.mp hsymbol).symm
  · rintro rfl
    cases op <;> rfl

namespace Node

/-- The operations that a node adds to those of its parts. -/
def ownOpcodes : Node → List Opcode
  | .declarator _ _ init => .decl :: if init.isSome then [.mov] else []
  | .binary _ operator _ _ => ((BinaryOp.ofSymbol? operator).map .binary).toList
  | .logical _ operator _ _ =>
    [.cmp, if operator = "||" then .jumpIfTrue else .jumpIfFalse, .mov, .jump, .label, .mov, .label]
  | .assignment .. => [.mov]
  | .conditional _ _ _ alternate =>
    [.cmp, .jumpIfFalse] ++ (if alternate.isSome then [.jump, .label] else []) ++ [.label]
  | .whileLoop .. => [.label, .cmp, .jumpIfFalse, .jump, .label]
  | .forLoop _ _ test _ _ =>
    .label :: (if test.isSome then [.cmp, .jumpIfFalse] else []) ++ [.jump, .label]
  | .function _ _ params _ => .func :: List.replicate params.length .param ++ [.endFunc]
  | .ret .. => [.ret]
  | .program .. | .declaration .. | .literal .. | .identifier .. | .expression .. | .block ..
  | .foreign .. => []

def work (n : Node) : Multiset Opcode :=
  (n.preorder.map fun m => (m.ownOpcodes : Multiset Opcode)).sum

theorem work_eq (n : Node) : n.work = n.ownOpcodes + (n.children.map work).sum := by
  have hbelow : ((n.children.flatMap preorder).map fun m => (m.ownOpcodes : Multiset Opcode)).sum =
      (n.children.map work).sum := by
    induction n.children with
    | nil => rfl
    | cons m rest ih =>
      rw [List.flatMap_cons, List.map_append, List.sum_append, ih]
      rfl
  rw [work, preorder_eq, List.map_cons, List.sum_cons, hbelow]

@[simp] theorem work_identifier (loc : Option Location) (name : String) :
    (Node.identifier loc name).work = 0 := rfl

end Node

namespace Lowering
open Counters

def Phrase.work (p : Phrase) : Multiset Opcode := (p.nodes.map Node.work).sum

@[simp] theorem work_expr (n : Node) (value : Operand) : (Phrase.expr n value).work = n.work := by
  simp [Phrase.work, Phrase.nodes]

@[simp] theorem work_stmt (n : Node) : (Phrase.stmt n).work = n.work := by
  simp [Phrase.work, Phrase.nodes]

@[simp] theorem work_stmts (ns : List Node) : (Phrase.stmts ns).work = (ns.map Node.work).sum := rfl

@[simp] theorem work_update (n : Option Node) :
    (Phrase.update n).work = (n.toList.map Node.work).sum := rfl

def opcodes (code : List Instruction) : Multiset Opcode := (code.map (·.opcode) : List Opcode)

@[simp] theorem opcodes_nil : opcodes [] = 0 := rfl

@[simp] theorem opcodes_cons (i : Instruction) (rest : List Instruction) :
    opcodes (i :: rest) = {i.opcode} + opcodes rest := rfl

@[simp] theorem opcodes_append (xs ys : List Instruction) :
    opcodes (xs ++ ys) = opcodes xs + opcodes ys := by
  simp [opcodes]

/-- Formal parameters give one instruction each and are names without parts. -/
theorem opcodes_parameters {params : List Node} {code : List Instruction}
    (h : parameters params = .ok code) :
    opcodes code = (List.replicate params.length Opcode.param : List Opcode) ∧
      (params.map Node.work).sum = 0 := by
  induction params generalizing code with
  | nil =>
    cases h
    exact ⟨rfl, rfl⟩
  | cons p rest ih =>
    unfold parameters at h
    split at h
    · obtain ⟨restCode, hrest, h⟩ := bind_eq_ok.mp h
      cases h
      obtain ⟨hcode, hwork⟩ := ih hrest
      refine ⟨?_, ?_⟩
      · rw [opcodes_cons, hcode]
        rfl
      · rw [List.map_cons, List.sum_cons, hwork]
        rfl
    · cases h

theorem skip_opcode {operator : String} {skip : String → Location → Instruction}
    (h : shortCut? operator = some skip) (label : String) (loc : Location) :
    (skip label loc).opcode = if operator = "||" then .jumpIfTrue else .jumpIfFalse := by
  obtain ⟨rfl, rfl⟩ | ⟨rfl, rfl⟩ := shortCut?_eq_some.mp h <;> rfl

private theorem coe_cons_eq_add (o : Opcode) (os : List Opcode) :
    ((o :: os : List Opcode) : Multiset Opcode) = {o} + (os : Multiset Opcode) := rfl

private theorem coe_append_eq_add (os os' : List Opcode) :
    ((os ++ os' : List Opcode) : Multiset Opcode) =
      (os : Multiset Opcode) + (os' : Multiset Opcode) :=
  rfl

/-- The code of a phrase consists of the operations of its nodes. -/
theorem opcodes_eq_work {s : Segment} (h : Lowers s) : opcodes s.code = s.phrase.work := by
  induction h with
  | intro rule parts ih =>
    replace ih := eachPart_iff.mpr ih
    cases rule with
    | function h =>
      obtain ⟨hbody, -⟩ := (eachPart_own _ _).mp ih
      obtain ⟨hparams, hnone⟩ := opcodes_parameters h
      simp only [work_stmt] at hbody ⊢
      rw [Node.work_eq]
      simp only [Node.ownOpcodes, Node.children, coe_cons_eq_add, coe_append_eq_add, ← hparams]
      simp [hnone, hbody]
      abel
    | literal | identifier | declare | ret | nil | noUpdate => rfl
    | bare | someUpdate =>
      obtain ⟨hexpr, -⟩ := ih
      simpa using hexpr
    | cons =>
      obtain ⟨hfirst, hrest, -⟩ := ih
      simp only [work_stmt, work_stmts] at hfirst hrest
      simp [hfirst, hrest]
    | program | block | declaration | expression =>
      simp only [EachPart, work_expr, work_stmt, work_stmts] at ih ⊢
      rw [Node.work_eq]
      simp [Node.ownOpcodes, Node.children, ih]
    | logical h =>
      simp only [EachPart, work_expr] at ih ⊢
      rw [Node.work_eq]
      simp [Node.ownOpcodes, Node.children, coe_cons_eq_add, skip_opcode h, ih,
        -Multiset.singleton_add]
      abel
    | binary h =>
      simp only [EachPart, work_expr] at ih ⊢
      rw [Node.work_eq]
      simp [Node.ownOpcodes, Node.children, h, ih, -Multiset.singleton_add]
      abel
    | _ =>
      simp only [EachPart, work_expr, work_stmt, work_stmts, work_update] at ih ⊢
      rw [Node.work_eq]
      simp [Node.ownOpcodes, Node.children, coe_cons_eq_add, ih, -Multiset.singleton_add]
      abel

/-- Every label that is allocated is placed once. -/
theorem labels_eq {s : Segment} (h : Lowers s) :
    s.after.labels = s.before.labels + (opcodes s.code).count .label := by
  induction h with
  | intro rule parts ih =>
    replace ih := eachPart_iff.mpr ih
    cases rule with
    | @function _ _ _ _ _ _ _ paramCode _ h =>
      obtain ⟨hbody, -⟩ := (eachPart_own _ _).mp ih
      have hparams : (opcodes paramCode).count .label = 0 := by
        rw [(opcodes_parameters h).1]
        simp
      simpa [hparams] using hbody
    | logical h =>
      simp only [EachPart] at ih
      obtain ⟨-, rfl⟩ | ⟨-, rfl⟩ := shortCut?_eq_some.mp h <;>
      · simp [ih]
        omega
    | literal | identifier | declare | ret | nil | noUpdate => simp
    | assignment | program | block | declaration | initialise | expression | bare | retValue
      | someUpdate =>
      simpa using ih.1
    | _ =>
      simp only [EachPart] at ih
      simp [ih]
      omega

end Lowering

open Lowering

namespace Node

def count (sort : Node → Bool) (n : Node) : Nat := n.preorder.countP sort

def isBinary : Node → Bool
  | .binary .. => true
  | _ => false

def isBinaryOf (op : BinaryOp) : Node → Bool
  | .binary _ operator _ _ => operator = op.symbol
  | _ => false

def isLogical : Node → Bool
  | .logical .. => true
  | _ => false

def isDisjunction : Node → Bool
  | .logical _ operator _ _ => operator = "||"
  | _ => false

def isAssignment : Node → Bool
  | .assignment .. => true
  | _ => false

def isDeclarator : Node → Bool
  | .declarator .. => true
  | _ => false

def isInitialised : Node → Bool
  | .declarator _ _ init => init.isSome
  | _ => false

def isConditional : Node → Bool
  | .conditional .. => true
  | _ => false

def hasAlternate : Node → Bool
  | .conditional _ _ _ alternate => alternate.isSome
  | _ => false

def isWhile : Node → Bool
  | .whileLoop .. => true
  | _ => false

def isFor : Node → Bool
  | .forLoop .. => true
  | _ => false

def isTestedFor : Node → Bool
  | .forLoop _ _ test _ _ => test.isSome
  | _ => false

def isFunction : Node → Bool
  | .function .. => true
  | _ => false

def isReturn : Node → Bool
  | .ret .. => true
  | _ => false

def formals : Node → Nat
  | .function _ _ params _ => params.length
  | _ => 0

/-- How many instructions of an operation a node adds to those of its parts. -/
def share (n : Node) : Opcode → Nat
  | .decl => n.isDeclarator.toNat
  | .mov => n.isAssignment.toNat + n.isInitialised.toNat + 2 * n.isLogical.toNat
  | .binary op => (n.isBinaryOf op).toNat
  | .cmp => n.isConditional.toNat + n.isWhile.toNat + n.isTestedFor.toNat + n.isLogical.toNat
  | .jumpIfFalse =>
    n.isConditional.toNat + n.isWhile.toNat + n.isTestedFor.toNat +
      (n.isLogical && !n.isDisjunction).toNat
  | .jumpIfTrue => n.isDisjunction.toNat
  | .jump => n.hasAlternate.toNat + n.isWhile.toNat + n.isFor.toNat + n.isLogical.toNat
  | .func => n.isFunction.toNat
  | .param => n.formals
  | .endFunc => n.isFunction.toNat
  | .ret => n.isReturn.toNat
  | .label => n.isConditional.toNat + n.hasAlternate.toNat +
    2 * (n.isWhile.toNat + n.isFor.toNat + n.isLogical.toNat)

theorem count_own (n : Node) (o : Opcode) : n.ownOpcodes.count o = n.share o := by
  cases n with
  | binary loc operator left right =>
    cases o with
    | binary op =>
      show List.count _ ((BinaryOp.ofSymbol? operator).map Opcode.binary).toList =
        (decide (operator = op.symbol)).toNat
      simp only [← BinaryOp.ofSymbol?_eq_some]
      cases h : BinaryOp.ofSymbol? operator with
      | none => simp
      | some op' => by_cases hop : op' = op <;> simp [hop]
    | _ => cases h : BinaryOp.ofSymbol? operator <;> simp [ownOpcodes, h] <;> rfl
  | logical loc operator left right =>
    by_cases h : operator = "||"
    · subst h
      cases o <;> rfl
    · cases o with
      | jumpIfFalse | jumpIfTrue =>
        simp [ownOpcodes, share, isConditional, isWhile, isTestedFor, isLogical,
          isDisjunction, h]
      | _ =>
        simp [ownOpcodes, h]
        rfl
  | declarator loc id init => cases init <;> cases o <;> rfl
  | conditional loc test consequent alternate => cases alternate <;> cases o <;> rfl
  | forLoop loc init test update body => cases test <;> cases o <;> rfl
  | function loc id params body =>
    cases o <;> simp [ownOpcodes, List.count_replicate] <;> rfl
  | _ => cases o <;> rfl

end Node

/-- What the code of a tree has for the nodes of the tree, operation by operation, and where the
counters end. -/
structure Conserved (tree : Node) (code : List Instruction) (c : Counters) : Prop where
  operators : ∀ op, (opcodes code).count (.binary op) = tree.count (·.isBinaryOf op)
  declarations : (opcodes code).count .decl = tree.count (·.isDeclarator)
  functions : (opcodes code).count .func = tree.count (·.isFunction)
  functionEnds : (opcodes code).count .endFunc = tree.count (·.isFunction)
  parameters : (opcodes code).count .param = (tree.preorder.map (·.formals)).sum
  returns : (opcodes code).count .ret = tree.count (·.isReturn)
  tests : (opcodes code).count .cmp = tree.count (·.isConditional) + tree.count (·.isWhile) +
    tree.count (·.isTestedFor) + tree.count (·.isLogical)
  branches : (opcodes code).count .jumpIfFalse + (opcodes code).count .jumpIfTrue =
    (opcodes code).count .cmp
  branchesIfTrue : (opcodes code).count .jumpIfTrue = tree.count (·.isDisjunction)
  moves : (opcodes code).count .mov = tree.count (·.isAssignment) + tree.count (·.isInitialised) +
    2 * tree.count (·.isLogical)
  jumps : (opcodes code).count .jump = tree.count (·.hasAlternate) + tree.count (·.isWhile) +
    tree.count (·.isFor) + tree.count (·.isLogical)
  temporaries : c.temps = tree.count (·.isBinary) + tree.count (·.isLogical)
  labels : c.labels = tree.count (·.isConditional) + tree.count (·.hasAlternate) +
    2 * (tree.count (·.isWhile) + tree.count (·.isFor) + tree.count (·.isLogical))
  marks : (opcodes code).count .label = c.labels

private theorem sum_toNat (sort : Node → Bool) (ns : List Node) :
    (ns.map fun n => (sort n).toNat).sum = ns.countP sort := by
  induction ns with
  | nil => rfl
  | cons n rest ih =>
    rw [List.map_cons, List.sum_cons, ih, List.countP_cons, Nat.add_comm]
    cases sort n <;> rfl

/-- How often an operation occurs in the code of a tree is a sum over the nodes of the tree. -/
theorem Lowering.count_opcodes {limits : Limits} {tree : Node} {code : List Instruction}
    {c : Counters} (h : tree.lowerCounting limits = .ok (code, c)) (o : Opcode) :
    (opcodes code).count o = (tree.preorder.map (·.share o)).sum := by
  have hwork := opcodes_eq_work (lowers_of_statement tree h)
  rw [work_stmt] at hwork
  rw [hwork, Node.work]
  generalize tree.preorder = ns
  induction ns with
  | nil => rfl
  | cons n rest ih =>
    rw [List.map_cons, List.map_cons, List.sum_cons, List.sum_cons, Multiset.count_add, ih,
      Multiset.coe_count, Node.count_own]

theorem Lowering.conserved {limits : Limits} {tree : Node} {code : List Instruction} {c : Counters}
    (h : tree.lowerCounting limits = .ok (code, c)) : Conserved tree code c := by
  have hlowers := lowers_of_statement tree h
  have htotal (sort : Node → Bool) :
      tree.count sort = (tree.preorder.map fun n => (sort n).toNat).sum := (sum_toNat sort _).symm
  have hmarks : (opcodes code).count .label = c.labels := by simpa using (labels_eq hlowers).symm
  constructor
  case marks => exact hmarks
  case labels =>
    rw [← hmarks, count_opcodes h]
    simp only [htotal, Node.share, List.sum_map_add, List.sum_map_mul_left]
  case temporaries =>
    have htemps : c.temps = tree.operations := by simpa using temps_eq hlowers
    have hsort (n : Node) : n.isOperation.toNat = n.isBinary.toNat + n.isLogical.toNat := by
      cases n <;> rfl
    rw [htemps, show tree.operations = tree.count (·.isOperation) from rfl]
    simp only [htotal, hsort, List.sum_map_add]
  case branches =>
    -- A logical operator jumps one way or the other, all other branches are taken if false.
    have hshare (n : Node) : n.share .cmp = n.share .jumpIfFalse + n.share .jumpIfTrue := by
      cases n with
      | logical loc operator left right =>
        by_cases hor : operator = "||" <;>
          simp [Node.share, Node.isLogical, Node.isDisjunction, hor]
      | _ => rfl
    simp only [count_opcodes h, hshare, List.sum_map_add]
  all_goals
    intros
    simp only [count_opcodes h, htotal, Node.share, List.sum_map_add, List.sum_map_mul_left]

/-- Lowering neither drops nor repeats work: whatever tree is lowered, its code has for each node
the instructions of this node and no others, and the counters have counted them. -/
theorem lowering_conserves_work {limits : Limits} (tree : Node) {code : List Instruction}
    (h : tree.lower limits = .ok code) :
    ∃ c, tree.lowerCounting limits = .ok (code, c) ∧ Conserved tree code c := by
  obtain ⟨⟨code, c⟩, hcounting, h⟩ := bind_eq_ok.mp h
  cases h
  exact ⟨c, hcounting, conserved hcounting⟩

/-- `function f(a, b) { if (a < b || b) return a; else for (;;) var i = true + a; }` -/
def mixedWork : Node :=
  .function none (.identifier none "f") [.identifier none "a", .identifier none "b"]
    (.conditional none
      (.logical none "||" (.binary none "<" (.identifier none "a") (.identifier none "b"))
        (.identifier none "b"))
      (.ret none (some (.identifier none "a")))
      (some (.forLoop none none none none
        (.declarator none (.identifier none "i")
          (some (.binary none "+" (.literal none (.bool true) "true") (.identifier none "a")))))))

theorem lowering_conserves_mixedWork : ∃ code c, mixedWork.lower {} = .ok code ∧
    mixedWork.lowerCounting {} = .ok (code, c) ∧ Conserved mixedWork code c ∧
    (opcodes code).count .mov = 3 ∧ c.temps = 3 ∧ c.labels = 6 := by
  have hlower : ∃ code, mixedWork.lower {} = .ok code := ⟨_, rfl⟩
  obtain ⟨code, hcode⟩ := hlower
  obtain ⟨c, hcounting, hconserved⟩ := lowering_conserves_work mixedWork hcode
  exact ⟨code, c, hcode, hcounting, hconserved, hconserved.moves.trans (by decide),
    hconserved.temporaries.trans (by decide), hconserved.labels.trans (by decide)⟩

end Sil
