import Mathlib
import Sil.Proofs.LoweringComplete
import Sil.Proofs.Refusals
import Sil.Proofs.Subtree
import Sil.Proofs.Temporaries

/-!
Lowering does not depend on where its counters start, but for the numbers in the names that it makes
up. The code of a phrase from raised counters is its code with all temporaries and labels raised. So
a program that is put together from two lists of statements gets the code of the first followed by
the raised code of the second.
-/
namespace Sil

namespace Counters

def raise (d c : Counters) : Counters := ⟨d.temps + c.temps, d.labels + c.labels⟩

/-- The number in a name that consists of a letter and digits. -/
def number? (letter : Char) (name : String) : Option Nat :=
  match name.toList with
  | [] => none
  | c :: digits =>
    if c = letter && !digits.isEmpty && digits.all Char.isDigit then some
      (Nat.ofDigitChars 10 digits 0)
    else none

def raiseTemp (d : Nat) (name : String) : String :=
  match number? 't' name with
  | some k => tempName (d + k)
  | none => name

def raiseLabel (d : Nat) (name : String) : String :=
  match number? 'L' name with
  | some k => labelName (d + k)
  | none => name

theorem number?_repr (letter : Char) (k : Nat) :
    number? letter (String.ofList [letter] ++ Nat.repr k) = some k := by
  have hdigits : (Nat.toDigits 10 k).all Char.isDigit := by
    rw [List.all_eq_true]
    intro d hd
    exact Nat.isDigit_of_mem_toDigits (by decide) (by decide) hd
  have hsome : Nat.toDigits 10 k ≠ [] := Nat.toDigits_ne_nil
  have hvalue : Nat.ofDigitChars 10 (Nat.toDigits 10 k) 0 = k :=
    Nat.ofDigitChars_toDigits (by decide) (by decide)
  simp [number?, Nat.repr, hdigits, hsome, hvalue]

@[simp] theorem raiseTemp_tempName (d c : Counters) :
    raiseTemp d.temps (tempName c.temps) = tempName (d.raise c).temps := by
  have hnumber : number? 't' (tempName c.temps) = some c.temps := number?_repr 't' c.temps
  rw [raiseTemp, hnumber]
  rfl

@[simp] theorem raiseLabel_labelName (d c : Counters) :
    raiseLabel d.labels (labelName c.labels) = labelName (d.raise c).labels := by
  have hnumber : number? 'L' (labelName c.labels) = some c.labels := number?_repr 'L' c.labels
  rw [raiseLabel, hnumber]
  rfl

@[simp] theorem raiseLabel_labelName_add (d c : Counters) (k : Nat) :
    raiseLabel d.labels (labelName (c.labels + k)) = labelName ((d.raise c).labels + k) := by
  have hraise := raiseLabel_labelName d ⟨c.temps, c.labels + k⟩
  rw [hraise]
  exact congrArg labelName (Nat.add_assoc _ _ _).symm

theorem raiseTemp_of_not_isTemporary {name : String} (h : isTemporary name = false) (d : Nat) :
    raiseTemp d name = name := by
  have hnumber : number? 't' name = none := by
    rw [isTemporary] at h
    rw [number?]
    cases hname : name.toList with
    | nil => rfl
    | cons c digits =>
      by_cases hc : c = 't'
      · subst hc
        rw [hname] at h
        have hdigits : (!digits.isEmpty && digits.all Char.isDigit) = false := h
        simp only [decide_true, Bool.true_and, hdigits, Bool.false_eq_true, if_false]
      · simp [hc]
  rw [raiseTemp, hnumber]

end Counters

open Counters

def Operand.raise (d : Counters) : Operand → Operand
  | .temp (.text name) => .temp (raiseTemp d.temps name)
  | o => o

def Instruction.raise (d : Counters) (i : Instruction) : Instruction :=
  { i with
    dest := i.dest.map (raiseTemp d.temps)
    operands := i.operands.map (·.raise d)
    label := i.label.map (raiseLabel d.labels) }

@[simp] theorem Operand.raise_temp (d : Counters) (name : String) :
    (Operand.temp name).raise d = .temp (raiseTemp d.temps name) := rfl

namespace Instruction

variable (d : Counters) (loc : Location)

@[simp] theorem raise_mov (dest : String) (source : Operand) :
    (mov dest source loc).raise d = mov (raiseTemp d.temps dest) (source.raise d) loc := rfl

@[simp] theorem raise_binary (op : BinaryOp) (dest : String) (left right : Operand) :
    (binary op dest left right loc).raise d =
      binary op (raiseTemp d.temps dest) (left.raise d) (right.raise d) loc := rfl

@[simp] theorem raise_cmp (source : Operand) :
    (cmp source loc).raise d = cmp (source.raise d) loc := rfl

@[simp] theorem raise_jumpIfFalse (label : String) :
    (jumpIfFalse label loc).raise d = jumpIfFalse (raiseLabel d.labels label) loc := rfl

@[simp] theorem raise_jump (label : String) :
    (jump label loc).raise d = jump (raiseLabel d.labels label) loc := rfl

@[simp] theorem raise_mark (label : String) :
    (mark label).raise d = mark (raiseLabel d.labels label) := rfl

@[simp] theorem raise_decl (name : String) : (decl name loc).raise d = decl name loc := rfl

end Instruction

namespace Lowering
open Instruction

theorem raise_skip {operator : String} {skip : String → Location → Instruction}
    (h : shortCut? operator = some skip) (d : Counters) (label : String) (loc : Location) :
    (skip label loc).raise d = skip (raiseLabel d.labels label) loc := by
  obtain ⟨-, rfl⟩ | ⟨-, rfl⟩ := shortCut?_eq_some.mp h <;> rfl

def Phrase.raise (d : Counters) : Phrase → Phrase
  | .expr n value => .expr n (value.raise d)
  | p => p

def Segment.raise (d : Counters) (s : Segment) : Segment :=
  ⟨s.inFunction, d.raise s.before, s.phrase.raise d, s.code.map (·.raise d), d.raise s.after⟩

def Piece.raise (d : Counters) : Piece → Piece
  | .own i => .own (i.raise d)
  | .part s => .part (s.raise d)

theorem codeOf_raise (d : Counters) (ps : List Piece) :
    codeOf (ps.map (·.raise d)) = (codeOf ps).map (·.raise d) := by
  induction ps with
  | nil => rfl
  | cons p ps ih =>
    rw [List.map_cons]
    cases p with
    | own i =>
      rw [codeOf_own, List.map_cons, ← ih]
      rfl
    | part t =>
      rw [codeOf_part, List.map_append, ← ih]
      rfl

/-- No name of a phrase has the form of a temporary. -/
def Phrase.IsPlain (p : Phrase) : Prop :=
  p.Throughout fun n => ∀ name, n.identifier? = some name → isTemporary name = false

theorem Phrase.IsPlain.raiseTemp_eq {p : Phrase} (hp : p.IsPlain) {n : Node} {loc : Option Location}
    {name : String} (hn : n ∈ p.nodes) (hname : .identifier loc name ∈ n.children) (d : Nat) :
    raiseTemp d name = name :=
  raiseTemp_of_not_isTemporary (hp n hn _ (.child hname) name rfl) d

/-- A rule goes on with any counters. -/
theorem Rule.raise (d : Counters) {f : Bool} {c c' : Counters} {p : Phrase} {pieces : List Piece}
    (rule : Rule f c p pieces c') (hp : p.IsPlain) :
    Rule f (d.raise c) (p.raise d) (pieces.map (·.raise d)) (d.raise c') := by
  cases rule with
  | literal h =>
    obtain ⟨spelling, rfl⟩ := literal_eq_ok h
    exact .literal h
  | identifier => exact .identifier
  | binary h =>
    simp only [List.map_cons, List.map_nil, Piece.raise, Segment.raise, Phrase.raise,
      Operand.raise_temp, raise_binary, raiseTemp_tempName]
    exact .binary h
  | logical h =>
    simp only [List.map_cons, List.map_nil, Piece.raise, Segment.raise, Phrase.raise,
      Operand.raise_temp, raise_cmp, raise_skip h, raise_mov, raise_jump, raise_mark,
      raiseTemp_tempName, raiseLabel_labelName, raiseLabel_labelName_add]
    exact .logical h
  | assignment | initialise =>
    have hname := hp.raiseTemp_eq (List.mem_singleton_self _) List.mem_cons_self d.temps
    simp only [List.map_cons, List.map_nil, Piece.raise, Segment.raise, Phrase.raise, raise_mov,
      raise_decl, hname]
    constructor
  | @function _ _ _ _ _ _ _ paramCode _ h =>
    have hparams : (paramCode.map Piece.own).map (Piece.raise d) = paramCode.map Piece.own := by
      rw [List.map_map, List.map_inj_left]
      intro i hi
      obtain ⟨loc, name, -, rfl⟩ := parameters_eq_ok h i hi
      rfl
    rw [List.cons_append, List.map_cons, List.map_append, hparams]
    exact .function h
  | conditional | alternative | whileLoop | forLoop | endlessLoop =>
    simp only [List.map_cons, List.map_nil, Piece.raise, Segment.raise, Phrase.raise, raise_cmp,
      raise_jumpIfFalse, raise_jump, raise_mark, raiseLabel_labelName, raiseLabel_labelName_add]
    constructor
  | program => exact .program
  | block => exact .block
  | declaration => exact .declaration
  | declare => exact .declare
  | expression => exact .expression
  | bare => exact .bare
  | ret => exact .ret
  | retValue => exact .retValue
  | nil => exact .nil
  | cons => exact .cons
  | noUpdate => exact .noUpdate
  | someUpdate => exact .someUpdate

/-- What is lowered from some counters is lowered from raised ones, to the raised code. -/
theorem Lowers.raise (d : Counters) {s : Segment} (h : Lowers s) (hs : s.phrase.IsPlain) :
    Lowers (s.raise d) := by
  induction h with
  | @intro f c c' p pieces rule parts ih =>
    have hplain := rule.throughout hs
    refine .of_parts (rule.raise d hs) (eachPart_iff.mpr ?_) (codeOf_raise d pieces).symm
    intro t ht
    obtain ⟨piece, hpiece, hraise⟩ := List.mem_map.mp ht
    cases piece with
    | own i => cases hraise
    | part u =>
      cases hraise
      exact ih u hpiece (eachPart_iff.mp hplain u hpiece)

/-- Statements have one code from each state of the counters. -/
theorem lowers_stmts_unique {f : Bool} {c c₁ c₂ : Counters} {ns : List Node}
    {code₁ code₂ : List Instruction} (h₁ : Lowers ⟨f, c, .stmts ns, code₁, c₁⟩)
    (h₂ : Lowers ⟨f, c, .stmts ns, code₂, c₂⟩) : code₁ = code₂ ∧ c₁ = c₂ := by
  obtain ⟨r₁, hr₁⟩ := h₁.isLowered
  obtain ⟨r₂, hr₂⟩ := h₂.isLowered
  have heq₁ := hr₁ (max r₁ r₂) (le_max_left r₁ r₂)
  have heq₂ := hr₂ (max r₁ r₂) (le_max_right r₁ r₂)
  simp only [Segment.IsLowered] at heq₁ heq₂
  rw [heq₁] at heq₂
  cases heq₂
  exact ⟨rfl, rfl⟩

/-- Raised counters raise the code of a list of statements, and nothing else. -/
theorem statements_raise (d : Counters) {s : Scope} {c c' : Counters} {ns : List Node}
    {code : List Instruction} (h : statements s c ns = .ok (code, c'))
    (hns : (Phrase.stmts ns).IsPlain) :
    statements s (d.raise c) ns = .ok (code.map (·.raise d), d.raise c') := by
  -- What statements are refused for does not depend on the counters.
  have hrefusals (c : Counters) :
      StopsAt (statements s c ns) (ns.flatMap (refusals s.room s.inFunction .statement)) :=
    statements_stopsAt (statement_stopsAt s.room s.inFunction) c ns
  have hnone := (hrefusals c).ok_iff.mp ⟨_, h⟩
  obtain ⟨⟨more, c''⟩, hmore⟩ := (hrefusals (d.raise c)).ok_iff.mpr hnone
  have hraised := (lowers_of_statements ns h).raise d hns
  obtain ⟨rfl, rfl⟩ := lowers_stmts_unique (lowers_of_statements ns hmore) hraised
  exact hmore

theorem statements_append {s : Scope} {c c₁ c₂ : Counters} {xs ys : List Node}
    {code more : List Instruction} (hxs : statements s c xs = .ok (code, c₁))
    (hys : statements s c₁ ys = .ok (more, c₂)) :
    statements s c (xs ++ ys) = .ok (code ++ more, c₂) := by
  induction xs generalizing c code with
  | nil =>
    cases hxs
    exact hys
  | cons n rest ih =>
    rw [statements] at hxs
    obtain ⟨⟨first, c'⟩, hn, hxs⟩ := bind_eq_ok.mp hxs
    obtain ⟨⟨restCode, c''⟩, hrest, hxs⟩ := bind_eq_ok.mp hxs
    cases hxs
    rw [List.cons_append, statements, List.append_assoc]
    exact bind_eq_ok.mpr ⟨_, hn, bind_eq_ok.mpr ⟨_, ih hrest, rfl⟩⟩

theorem lowerCounting_program {limits : Limits} {room : Nat} (hroom : limits.lowering = room + 1)
    (loc : Option Location) (ns : List Node) :
    (Node.program loc ns).lowerCounting limits = statements ⟨room, false⟩ {} ns := by
  rw [Node.lowerCounting, outermost, hroom, statement]
  rfl

/-- A program whose code is made leaves room for its statements. -/
theorem room_of_lowerCounting {limits : Limits} {loc : Option Location} {ns : List Node}
    {result : List Instruction × Counters}
    (h : (Node.program loc ns).lowerCounting limits = .ok result) :
    ∃ room, limits.lowering = room + 1 := by
  cases hroom : limits.lowering with
  | zero =>
    rw [Node.lowerCounting, outermost, hroom, statement] at h
    cases h
  | succ room => exact ⟨room, rfl⟩

/-- What is first refused in a program of two lists of statements. -/
theorem head?_refusals_append (limits : Limits) (loc locX locY : Option Location)
    (xs ys : List Node) : ((Node.program loc (xs ++ ys)).refusals limits).head? =
      ((Node.program locX xs).refusals limits ++ (Node.program locY ys).refusals limits).head? := by
  unfold Node.refusals
  cases limits.lowering with
  | zero => rfl
  | succ room => simp only [refusals, ownRefusals, parts, List.nil_append, List.flatMap_map,
      List.flatMap_append]; rfl

end Lowering

open Lowering

/-- Lowering is compositional up to renumbering. Two lists of statements make a program exactly if
each of them does; its code is that of the first followed by that of the second, raised by the
counters that the first ends with; and it is refused for what the first is refused for, or else the
second. -/
theorem lowering_compositional {limits : Limits} (loc locX locY : Option Location)
    (xs ys : List Node) (hnames : ∀ n ∈ ys, ∀ loc name, (Node.identifier loc name).Subtree n →
      isTemporary name = false) :
    ((∃ code, (Node.program loc (xs ++ ys)).lower limits = .ok code) ↔
      (∃ code, (Node.program locX xs).lower limits = .ok code) ∧
        ∃ code, (Node.program locY ys).lower limits = .ok code) ∧
    (∀ codeX cX codeY cY, (Node.program locX xs).lowerCounting limits = .ok (codeX, cX) →
      (Node.program locY ys).lowerCounting limits = .ok (codeY, cY) →
      (Node.program loc (xs ++ ys)).lowerCounting limits =
        .ok (codeX ++ codeY.map (·.raise cX), cX.raise cY)) ∧
    (∀ codeX codeY, (Node.program locX xs).lower limits = .ok codeX →
      (Node.program locY ys).lower limits = .ok codeY →
      ∃ cX, (Node.program locX xs).lowerCounting limits = .ok (codeX, cX) ∧
        (Node.program loc (xs ++ ys)).lower limits = .ok (codeX ++ codeY.map (·.raise cX))) ∧
    ∀ e, (Node.program loc (xs ++ ys)).lower limits = .error e ↔
      (Node.program locX xs).lower limits = .error e ∨
        (∃ code, (Node.program locX xs).lower limits = .ok code) ∧
          (Node.program locY ys).lower limits = .error e := by
  have hboth := lower_stopsAt limits (.program loc (xs ++ ys))
  have hfirst := lower_stopsAt limits (.program locX xs)
  have hsecond := lower_stopsAt limits (.program locY ys)
  have hhead := head?_refusals_append limits loc locX locY xs ys
  have hcounting : ∀ codeX cX codeY cY,
      (Node.program locX xs).lowerCounting limits = .ok (codeX, cX) →
      (Node.program locY ys).lowerCounting limits = .ok (codeY, cY) →
      (Node.program loc (xs ++ ys)).lowerCounting limits =
        .ok (codeX ++ codeY.map (·.raise cX), cX.raise cY) := by
    intro codeX cX codeY cY hX hY
    obtain ⟨room, hroom⟩ := room_of_lowerCounting hX
    rw [lowerCounting_program hroom] at hX hY ⊢
    have hplain : (Phrase.stmts ys).IsPlain := by
      intro n hn m hm name hname
      cases m with
      | identifier loc' name' =>
        cases hname
        exact hnames n hn loc' name hm
      | _ => cases hname
    exact statements_append hX (statements_raise cX hY hplain)
  refine ⟨?_, hcounting, ?_, ?_⟩
  · rw [hboth.ok_iff, hfirst.ok_iff, hsecond.ok_iff, ← List.head?_eq_none_iff, hhead,
      List.head?_eq_none_iff, List.append_eq_nil_iff]
  · intro codeX codeY hX hY
    obtain ⟨⟨_, cX⟩, hX, hcodeX⟩ := bind_eq_ok.mp hX
    obtain ⟨⟨_, cY⟩, hY, hcodeY⟩ := bind_eq_ok.mp hY
    cases hcodeX
    cases hcodeY
    exact ⟨cX, hX, lower_of_lowerCounting (hcounting _ _ _ _ hX hY)⟩
  · intro e
    rw [hboth.eq_error_iff, hfirst.eq_error_iff, hfirst.ok_iff, hsecond.eq_error_iff, hhead,
      List.head?_append]
    cases (Node.program locX xs).refusals limits with
    | nil => simp
    | cons e' rest => simp

/-- `x = a && b;` takes a temporary and two labels. -/
def shortCutFirst : List Node :=
  [.expression none (.assignment none "=" (.identifier none "x")
    (.logical none "&&" (.identifier none "a") (.identifier none "b")))]

/-- `while (c - d) y = c;` takes a temporary and two labels, too. -/
def loopNext : List Node :=
  [.whileLoop none (.binary none "-" (.identifier none "c") (.identifier none "d"))
    (.assignment none "=" (.identifier none "y") (.identifier none "c"))]

theorem lowering_compositional_loopNext : ∃ codeX codeY,
    (Node.program none shortCutFirst).lowerCounting {} = .ok (codeX, ⟨1, 2⟩) ∧
    (Node.program none loopNext).lowerCounting {} = .ok (codeY, ⟨1, 2⟩) ∧
    (Node.program none (shortCutFirst ++ loopNext)).lowerCounting {} =
      .ok (codeX ++ codeY.map (·.raise ⟨1, 2⟩), ⟨2, 4⟩) := by
  have hfirst : ∃ code, (Node.program none shortCutFirst).lowerCounting {} = .ok (code, ⟨1, 2⟩) :=
    ⟨_, rfl⟩
  have hnext : ∃ code, (Node.program none loopNext).lowerCounting {} = .ok (code, ⟨1, 2⟩) :=
    ⟨_, rfl⟩
  obtain ⟨codeX, hX⟩ := hfirst
  obtain ⟨codeY, hY⟩ := hnext
  have hspelled : ∀ n ∈ loopNext, ∀ name ∈ n.preorder.filterMap Node.identifier?,
      isTemporary name = false := by decide
  obtain ⟨-, hresult, -⟩ := lowering_compositional none none none shortCutFirst loopNext
    fun n hn loc name h => hspelled n hn name (Node.names_iff.mp ⟨loc, h⟩)
  exact ⟨codeX, codeY, hX, hY, hresult codeX _ codeY _ hX hY⟩

end Sil
