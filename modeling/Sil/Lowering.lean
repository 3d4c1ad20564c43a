import Sil.Instruction
import Sil.Limits
import Sil.Syntax.Node

/-!
Lowering of a syntax tree to SIL. The code of a node is one segment, made from the numbers that the
next temporary and the next label get; a node is lowered inside a scope that tells how deep it
stands and whether a function encloses it.
-/
namespace Sil

structure Counters where
  temps : Nat := 0
  labels : Nat := 0
  deriving DecidableEq

namespace Counters

def tempName (n : Nat) : String := "t" ++ Nat.repr n

def labelName (n : Nat) : String := "L" ++ Nat.repr n

def freshTemp (c : Counters) :
    String × Counters := (tempName c.temps, { c with temps := c.temps + 1 })

def freshLabel (c : Counters) : String × Counters :=
  (labelName c.labels, { c with labels := c.labels + 1 })

end Counters

/-- What surrounds a node: how many more levels may nest in it, and whether it is in a function. -/
structure Scope where
  room : Nat
  inFunction : Bool
  deriving DecidableEq

namespace Lowering

def outermost (limits : Limits) : Scope := ⟨limits.lowering, false⟩

def inner (s : Scope) : Except Error Scope :=
  match s.room with
  | 0 => .error (.tooDeep .lowering)
  | room + 1 => .ok { s with room := room }

/-- The jump that skips the right operand of a logical operator. -/
def shortCut? (operator : String) : Option (String → Location → Instruction) :=
  if operator = "&&" then some Instruction.jumpIfFalse
  else if operator = "||" then some Instruction.jumpIfTrue
  else none

def parameters : List Node → Except Error (List Instruction)
  | [] => .ok []
  | p :: rest =>
    match p with
    | .identifier _ name => do return .param name p.place :: (← parameters rest)
    | _ => .error (.unsupportedConstruct p.kind p.loc "")

/-- The code that computes an expression, and the operand that holds its value afterwards. -/
def expression (s : Scope) (c : Counters) (n : Node) :
    Except Error (List Instruction × Operand × Counters) := do
  let s ← inner s
  match n with
  | .literal _ value raw => return ([], ← Operand.literal value raw, c)
  | .identifier _ name => return ([], .var name, c)
  | .binary _ operator left right =>
    match BinaryOp.ofSymbol? operator with
    | none => throw (.unsupportedOperator operator n.kind n.loc)
    | some op =>
      let (leftCode, lhs, c) ← expression s c left
      let (rightCode, rhs, c) ← expression s c right
      let (result, c) := c.freshTemp
      return (leftCode ++ rightCode ++ [.binary op result lhs rhs n.place], .temp result, c)
  | .logical _ operator left right =>
    match shortCut? operator with
    | none => throw (.unsupportedOperator operator n.kind n.loc)
    | some skip =>
      let (leftCode, lhs, c) ← expression s c left
      let (result, c) := c.freshTemp
      let (short, c) := c.freshLabel
      let (done, c) := c.freshLabel
      let (rightCode, rhs, c) ← expression s c right
      return (leftCode ++ [.cmp lhs n.place, skip short n.place] ++ rightCode ++
        [.mov result rhs n.place, .jump done n.place, .mark short, .mov result lhs n.place,
          .mark done], .temp result, c)
  | .assignment _ operator left right =>
    if operator ≠ "=" then throw (.unsupportedOperator operator n.kind n.loc)
    match left with
    | .identifier _ target =>
      let (code, value, c) ← expression s c right
      return (code ++ [.mov target value n.place], .var target, c)
    | _ => throw (.invalidTarget left.kind (left.loc <|> n.loc))
  | _ => throw (.unsupportedConstruct n.kind n.loc "")

mutual

/-- The code of a statement. An expression in its place is computed for its effects. -/
def statement (s : Scope) (c : Counters) (n : Node) :
    Except Error (List Instruction × Counters) := do
  match n with
  | .program _ body => statements (← inner s) c body
  | .block _ body => statements (← inner s) c body
  | .declaration _ _ declarators => statements (← inner s) c declarators
  | .declarator _ id init =>
    let s ← inner s
    match id with
    | .identifier _ name =>
      match init with
      | none => return ([.decl name n.place], c)
      | some init =>
        let (code, value, c) ← expression s c init
        return (.decl name n.place :: code ++ [.mov name value n.place], c)
    | _ => throw (.unsupportedConstruct id.kind id.loc "")
  | .expression _ e =>
    let (code, _, c) ← expression (← inner s) c e
    return (code, c)
  | .conditional _ test consequent alternate =>
    let s ← inner s
    let (testCode, tested, c) ← expression s c test
    let (otherwise, c) := c.freshLabel
    let head := testCode ++ [.cmp tested n.place, .jumpIfFalse otherwise n.place]
    match alternate with
    | none =>
      let (code, c) ← statement s c consequent
      return (head ++ code ++ [.mark otherwise], c)
    | some alternate =>
      let (done, c) := c.freshLabel
      let (code, c) ← statement s c consequent
      let (elseCode, c) ← statement s c alternate
      return (head ++ code ++ [.jump done n.place, .mark otherwise] ++ elseCode ++ [.mark done], c)
  | .whileLoop _ test body =>
    let s ← inner s
    let (start, c) := c.freshLabel
    let (done, c) := c.freshLabel
    let (testCode, tested, c) ← expression s c test
    let (code, c) ← statement s c body
    return (.mark start :: testCode ++ [.cmp tested n.place, .jumpIfFalse done n.place] ++ code ++
      [.jump start n.place, .mark done], c)
  | .forLoop _ init test update body =>
    let s ← inner s
    let (initCode, c) ← (match init with
      | none => .ok ([], c)
      | some init => statement s c init)
    let (start, c) := c.freshLabel
    let (done, c) := c.freshLabel
    let (testCode, c) ← (match test with
      | none => .ok ([], c)
      | some test => do
        let (testCode, tested, c) ← expression s c test
        return (testCode ++ [.cmp tested n.place, .jumpIfFalse done n.place], c))
    let (code, c) ← statement s c body
    let (updateCode, c) ← (match update with
      | none => .ok ([], c)
      | some update => do
        let (updateCode, _, c) ← expression s c update
        return (updateCode, c))
    return (initCode ++ .mark start :: testCode ++ code ++ updateCode ++
      [.jump start n.place, .mark done], c)
  | .function _ id params body =>
    let s ← inner s
    if s.inFunction then
      throw (.unsupportedConstruct n.kind n.loc "nested inside a function")
    match id with
    | .identifier _ name =>
      let paramCode ← parameters params
      let (code, c) ← statement { s with inFunction := true } c body
      return (.func name n.place :: paramCode ++ code ++ [.endFunc n.place], c)
    | _ => throw (.unsupportedConstruct id.kind id.loc "")
  | .ret _ argument =>
    let s ← inner s
    match argument with
    | none => return ([.ret none n.place], c)
    | some argument =>
      let (code, value, c) ← expression s c argument
      return (code ++ [.ret (some value) n.place], c)
  | .literal .. | .identifier .. | .binary .. | .logical .. | .assignment .. | .foreign .. =>
    let (code, _, c) ← expression s c n
    return (code, c)

def statements (s : Scope) (c : Counters) : List Node → Except Error (List Instruction × Counters)
  | [] => .ok ([], c)
  | n :: rest => do
    let (code, c) ← statement s c n
    let (restCode, c) ← statements s c rest
    return (code ++ restCode, c)

end

end Lowering

/-- The SIL code of a syntax tree, with the counters after it. -/
def Node.lowerCounting (limits : Limits) (tree : Node) :
    Except Error (List Instruction × Counters) :=
  Lowering.statement (Lowering.outermost limits) {} tree

def Node.lower (limits : Limits) (tree : Node) : Except Error (List Instruction) := do
  let (code, _) ← tree.lowerCounting limits
  return code

end Sil
