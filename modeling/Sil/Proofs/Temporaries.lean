import Mathlib
import Sil.Proofs.LoweredSegments

/-!
The temporaries of lowered code. Every operator of a tree gets one, and they are numbered from zero
on, so the temporaries of a tree are known from the number of its operators. The names of the source
are not looked at: a temporary is a name of the source exactly if the source has a name with such a
number.
-/
namespace Sil.Node

/-- Whether a node computes a value that needs a temporary. -/
def isOperation : Node → Bool
  | .binary .. | .logical .. => true
  | _ => false

mutual

def preorder : Node → List Node
  | .program loc body => .program loc body :: preorderAll body
  | .declaration loc kind declarators =>
    .declaration loc kind declarators :: preorderAll declarators
  | .declarator loc id init => .declarator loc id init :: (preorder id ++ preorderSome init)
  | .literal loc value raw => [.literal loc value raw]
  | .identifier loc name => [.identifier loc name]
  | .binary loc operator left right =>
    .binary loc operator left right :: (preorder left ++ preorder right)
  | .logical loc operator left right =>
    .logical loc operator left right :: (preorder left ++ preorder right)
  | .assignment loc operator left right =>
    .assignment loc operator left right :: (preorder left ++ preorder right)
  | .expression loc inner => .expression loc inner :: preorder inner
  | .block loc body => .block loc body :: preorderAll body
  | .conditional loc test consequent alternate =>
    .conditional loc test consequent alternate ::
      (preorder test ++ (preorder consequent ++ preorderSome alternate))
  | .whileLoop loc test body => .whileLoop loc test body :: (preorder test ++ preorder body)
  | .forLoop loc init test update body =>
    .forLoop loc init test update body ::
      (preorderSome init ++ (preorderSome test ++ (preorderSome update ++ preorder body)))
  | .function loc id params body =>
    .function loc id params body :: (preorder id ++ (preorderAll params ++ preorder body))
  | .ret loc argument => .ret loc argument :: preorderSome argument
  | .foreign loc kind => [.foreign loc kind]

def preorderAll : List Node → List Node
  | [] => []
  | n :: rest => preorder n ++ preorderAll rest

def preorderSome : Option Node → List Node
  | none => []
  | some n => preorder n

end

theorem preorderAll_eq (ns : List Node) : preorderAll ns = ns.flatMap preorder := by
  induction ns with
  | nil => rfl
  | cons n rest ih => rw [preorderAll, ih, List.flatMap_cons]

theorem preorderSome_eq (n : Option Node) : preorderSome n = n.toList.flatMap preorder := by
  cases n with
  | none => rfl
  | some n => simp [preorderSome]

theorem preorder_eq (n : Node) : n.preorder = n :: n.children.flatMap preorder := by
  cases n <;> simp [preorder, children, preorderAll_eq, preorderSome_eq]

def operations (n : Node) : Nat := n.preorder.countP isOperation

theorem operations_eq (n : Node) :
    n.operations = (if n.isOperation then 1 else 0) + (n.children.map operations).sum := by
  have hsum : (n.children.flatMap preorder).countP isOperation = (n.children.map operations).sum :=
    List.countP_flatMap
  rw [operations, preorder_eq, List.countP_cons, hsum, Nat.add_comm]

theorem mem_preorder {m n : Node} : m ∈ n.preorder ↔ Subtree m n := by
  constructor
  · intro h
    -- The nodes below a child are fewer than those below its parent.
    induction hlength : n.preorder.length using Nat.strong_induction_on generalizing n with
    | h length ih =>
      rw [preorder_eq, List.length_cons] at hlength
      rw [preorder_eq, List.mem_cons, List.mem_flatMap] at h
      rcases h with rfl | ⟨k, hk, hm⟩
      · exact .root m
      · have hle : k.preorder.length ≤ (n.children.flatMap preorder).length := by
          rw [List.length_flatMap]
          exact List.single_le_sum (by simp) _ (List.mem_map_of_mem hk)
        exact .under hk (ih k.preorder.length (by omega) hm rfl)
  · intro h
    induction h with
    | root =>
      rw [preorder_eq]
      exact List.mem_cons_self
    | under hchild _ ih =>
      rw [preorder_eq]
      exact List.mem_cons_of_mem _ (List.mem_flatMap.mpr ⟨_, hchild, ih⟩)

/-- A name that the source has: of a variable, a function or a parameter. -/
def Names (tree : Node) (name : String) : Prop := ∃ loc, Subtree (.identifier loc name) tree

def identifier? : Node → Option String
  | .identifier _ name => some name
  | _ => none

theorem names_iff {tree : Node} {name : String} :
    tree.Names name ↔ name ∈ tree.preorder.filterMap identifier? := by
  simp only [Names, ← mem_preorder, List.mem_filterMap]
  constructor
  · rintro ⟨loc, h⟩
    exact ⟨_, h, rfl⟩
  · rintro ⟨n, h, hn⟩
    cases n with
    | identifier loc spelled =>
      cases hn
      exact ⟨loc, h⟩
    | _ => cases hn

instance (tree : Node) (name : String) : Decidable (tree.Names name) :=
  decidable_of_iff _ names_iff.symm

end Sil.Node

namespace Sil.Lowering
open Counters

def Phrase.operations (p : Phrase) : Nat := (p.nodes.map Node.operations).sum

@[simp] theorem operations_expr (n : Node) (value : Operand) :
    (Phrase.expr n value).operations = n.operations := by
  simp [Phrase.operations, Phrase.nodes]

@[simp] theorem operations_stmt (n : Node) : (Phrase.stmt n).operations = n.operations := by
  simp [Phrase.operations, Phrase.nodes]

@[simp] theorem operations_stmts (ns : List Node) :
    (Phrase.stmts ns).operations = (ns.map Node.operations).sum := rfl

@[simp] theorem operations_update (n : Option Node) :
    (Phrase.update n).operations = (n.toList.map Node.operations).sum := rfl

theorem operations_identifier (loc : Option Location) (name : String) :
    (Node.identifier loc name).operations = 0 := rfl

theorem operations_parameters {params : List Node} {code : List Instruction}
    (h : parameters params = .ok code) : (params.map Node.operations).sum = 0 := by
  induction params generalizing code with
  | nil => rfl
  | cons p rest ih =>
    unfold parameters at h
    split at h
    · rename_i loc name
      obtain ⟨restCode, hrest, -⟩ := bind_eq_ok.mp h
      rw [List.map_cons, List.sum_cons, operations_identifier, ih hrest]
    · cases h

/-- Every operator takes the number of one temporary. -/
theorem temps_eq {s : Segment} (h : Lowers s) :
    s.after.temps = s.before.temps + s.phrase.operations := by
  induction h with
  | intro rule parts ih =>
    replace ih := eachPart_iff.mpr ih
    cases rule with
    | function h =>
      obtain ⟨hbody, -⟩ := (eachPart_own _ _).mp ih
      have hparams := operations_parameters h
      simp only [operations_stmt] at hbody ⊢
      rw [Node.operations_eq]
      simp [Node.children, Node.isOperation, hparams, operations_identifier, hbody]
    | literal | identifier | declare | ret | nil | noUpdate => rfl
    | bare | someUpdate =>
      obtain ⟨hexpr, -⟩ := ih
      simpa using hexpr
    | cons =>
      obtain ⟨hfirst, hrest, -⟩ := ih
      simp only [operations_stmt, operations_stmts, List.map_cons, List.sum_cons] at hfirst hrest ⊢
      omega
    | _ =>
      simp only [EachPart, operations_expr, operations_stmt, operations_stmts, operations_update]
        at ih ⊢
      rw [Node.operations_eq]
      simp [Node.children, Node.isOperation, operations_identifier]
      omega

/-- The name of a temporary that is allocated for a phrase inside of a phrase. -/
def Allocates (s : Segment) (name : String) : Prop :=
  ∃ k t n, Occurs s k t ∧ t.phrase = .expr n (.temp name)

/-- An instruction at a position of the code of a phrase that stores the value of an operator in its
temporary. -/
def StoresAt (s : Segment) (k : Nat) (name : String) : Prop :=
  ∃ off f c n pre i post c',
    Occurs s off ⟨f, c, .expr n (.temp name), codeOf (pre ++ .own i :: post), c'⟩ ∧
    Rule f c (.expr n (.temp name)) (pre ++ .own i :: post) c' ∧
    i.dest = some name ∧ k = off + (codeOf pre).length

theorem StoresAt.writes {s : Segment} {k : Nat} {name : String} (h : StoresAt s k name) :
    ∃ i, s.code[k]? = some i ∧ i.dest = some name := by
  obtain ⟨off, f, c, n, pre, i, post, c', hoccurs, -, hdest, rfl⟩ := h
  obtain ⟨before, rest, hcode, rfl⟩ := hoccurs.code
  refine ⟨i, ?_, hdest⟩
  simp [hcode]

/-- The temporary of an operator has a number that is used for this operator alone. -/
theorem Rule.temp_numbered {f : Bool} {c c' : Counters} {n : Node} {name : Name}
    {pieces : List Piece} (rule : Rule f c (.expr n (.temp name)) pieces c')
    (parts : EachPart Lowers pieces) :
    ∃ k, c.temps ≤ k ∧ k < c'.temps ∧ name = .text (tempName k) := by
  cases rule with
  | binary =>
    obtain ⟨hl, hr, -⟩ := parts
    have hleft := counters_le hl
    have hright := counters_le hr
    exact ⟨_, hleft.1.trans hright.1, Nat.lt_succ_self _, rfl⟩
  | logical =>
    obtain ⟨hl, hr, -⟩ := parts
    have hleft := counters_le hl
    have hright := counters_le hr
    exact ⟨_, hleft.1, hright.1, rfl⟩
  | literal h =>
    obtain ⟨spelling, hconst⟩ := literal_eq_ok h
    cases hconst

/-- An operator stores its value with an instruction of its own. -/
theorem Rule.stores {f : Bool} {c c' : Counters} {n : Node} {name : String}
    {pieces : List Piece} (rule : Rule f c (.expr n (.temp name)) pieces c') :
    ∃ pre i post, pieces = pre ++ .own i :: post ∧ i.dest = some name := by
  generalize hp : Phrase.expr n (.temp name) = p at rule
  cases rule with
  | binary =>
    cases hp
    exact ⟨[_, _], _, [], rfl, rfl⟩
  | logical =>
    cases hp
    exact ⟨[_, _, _, _], _, _, rfl, rfl⟩
  | literal h =>
    cases hp
    obtain ⟨spelling, hconst⟩ := literal_eq_ok h
    cases hconst
  | _ => cases hp

/-- A number between the counters of a phrase that none of its parts uses is that of its own
temporary. -/
theorem Rule.temp_of_gap {f : Bool} {c c' : Counters} {p : Phrase} {pieces : List Piece} {k : Nat}
    (rule : Rule f c p pieces c') (hle : c.temps ≤ k) (hlt : k < c'.temps)
    (hgap : EachPart (fun t => k < t.before.temps ∨ t.after.temps ≤ k) pieces) :
    ∃ n, p = .expr n (.temp (tempName k)) := by
  cases rule with
  | function h =>
    obtain ⟨hbody, -⟩ := (eachPart_own _ _).mp hgap
    dsimp only at hbody
    omega
  | @binary _ _ c₁ c₂ =>
    simp only [EachPart] at hgap hlt
    obtain rfl : k = c₂.temps := by omega
    exact ⟨_, rfl⟩
  | @logical _ _ c₁ =>
    simp only [EachPart] at hgap
    obtain rfl : k = c₁.temps := by omega
    exact ⟨_, rfl⟩
  | _ =>
    simp only [EachPart] at hgap
    omega

/-- The temporaries allocated for a phrase are those numbered between its counters. -/
theorem allocates_iff {s : Segment} (h : Lowers s) {name : String} :
    Allocates s name ↔ ∃ k, s.before.temps ≤ k ∧ k < s.after.temps ∧ name = tempName k := by
  constructor
  · rintro ⟨off, t, n, ht, hphrase⟩
    have hcounters := ht.counters
    have hlowers := ht.lowers
    cases hlowers with
    | intro rule parts =>
      dsimp only at hphrase hcounters
      rw [hphrase] at rule
      obtain ⟨k, hle, hlt, hname⟩ := rule.temp_numbered (eachPart_iff.mpr parts)
      exact ⟨k, by omega, by omega, Name.text.inj hname⟩
  · rintro ⟨k, hle, hlt, rfl⟩
    induction h with
    | @intro f c c' p pieces rule parts ih =>
      by_cases hgap : EachPart (fun t => k < t.before.temps ∨ t.after.temps ≤ k) pieces
      · obtain ⟨n, hn⟩ := rule.temp_of_gap hle hlt hgap
        exact ⟨0, _, n, .whole (.intro rule parts), hn⟩
      · rw [eachPart_iff] at hgap
        push Not at hgap
        obtain ⟨t, ht, hbefore, hafter⟩ := hgap
        obtain ⟨off, u, n, hu, hphrase⟩ := ih t ht hbefore hafter
        obtain ⟨pre, post, rfl⟩ := List.append_of_mem ht
        exact ⟨_, u, n, .part rule parts hu, hphrase⟩

/-- A temporary is allocated exactly if the value of an operator is stored in it. -/
theorem allocates_iff_storesAt {s : Segment} {name : String} :
    Allocates s name ↔ ∃ k, StoresAt s k name := by
  constructor
  · rintro ⟨off, t, n, ht, hphrase⟩
    have hlowers := ht.lowers
    cases hlowers with
    | @intro f c c' p pieces rule parts =>
      dsimp only at hphrase
      subst hphrase
      obtain ⟨pre, i, post, rfl, hdest⟩ := rule.stores
      exact ⟨_, off, f, c, n, pre, i, post, c', ht, rule, hdest, rfl⟩
  · rintro ⟨k, off, f, c, n, pre, i, post, c', ht, -, -, -⟩
    exact ⟨off, _, n, ht, rfl⟩

end Sil.Lowering

namespace Sil
open Lowering Counters

/-- Exactly when temporaries are fresh. A tree that lowers has the temporaries numbered below the
number of its operators. So none of them is a name of the source, and no operator stores its value
in a variable of the source, if and only if the source has none of these names. -/
theorem temporaries_fresh_iff {limits : Limits} (tree : Node) {code : List Instruction}
    {c : Counters} (h : tree.lowerCounting limits = .ok (code, c)) :
    (∀ name, Allocates (.ofTree tree code c) name ↔ ∃ k < tree.operations, name = tempName k) ∧
    ((∀ name, Allocates (.ofTree tree code c) name → ¬ tree.Names name) ↔
      ∀ k < tree.operations, ¬ tree.Names (tempName k)) ∧
    ((∀ k name, StoresAt (.ofTree tree code c) k name → ¬ tree.Names name) ↔
      ∀ k < tree.operations, ¬ tree.Names (tempName k)) := by
  have hlowers := lowers_ofTree h
  have hallocates (name : String) :
      Allocates (.ofTree tree code c) name ↔ ∃ k < tree.operations, name = tempName k := by
    have htemps : c.temps = 0 + (Phrase.stmt tree).operations := temps_eq hlowers
    rw [operations_stmt, Nat.zero_add] at htemps
    rw [allocates_iff hlowers, ← htemps]
    simp [Segment.ofTree]
  have hfresh : (∀ name, Allocates (.ofTree tree code c) name → ¬ tree.Names name) ↔
      ∀ k < tree.operations, ¬ tree.Names (tempName k) := by
    constructor
    · intro hall k hk
      exact hall _ ((hallocates _).mpr ⟨k, hk, rfl⟩)
    · intro hall name hname
      obtain ⟨k, hk, rfl⟩ := (hallocates name).mp hname
      exact hall k hk
  refine ⟨hallocates, hfresh, ?_⟩
  rw [← hfresh]
  constructor
  · intro hall name hname
    obtain ⟨k, hk⟩ := allocates_iff_storesAt.mp hname
    exact hall k name hk
  · intro hall k name hk
    exact hall name (allocates_iff_storesAt.mpr ⟨k, hk⟩)

/-- `x = a + b && t7;` has a name that looks like a temporary, with a number that is not used. -/
def farName : Node :=
  .assignment none "=" (.identifier none "x")
    (.logical none "&&" (.binary none "+" (.identifier none "a") (.identifier none "b"))
      (.identifier none "t7"))

theorem temporaries_of_farName_fresh :
    ∃ code c, farName.lowerCounting {} = .ok (code, c) ∧
      (∀ name, Allocates (.ofTree farName code c) name ↔
        ∃ k < farName.operations, name = tempName k) ∧
      (∀ name, Allocates (.ofTree farName code c) name → ¬ farName.Names name) ∧
      ∀ k name, StoresAt (.ofTree farName code c) k name → ¬ farName.Names name := by
  have hlower : ∃ code c, farName.lowerCounting {} = .ok (code, c) := ⟨_, _, rfl⟩
  have hnames : ∀ k < farName.operations, ¬ farName.Names (tempName k) := by decide
  obtain ⟨code, c, hcode⟩ := hlower
  obtain ⟨hallocates, hfresh, hstores⟩ := temporaries_fresh_iff farName hcode
  exact ⟨code, c, hcode, hallocates, hfresh.mpr hnames, hstores.mpr hnames⟩

/-- `t0 = 1; x = a + b;` has a variable with the name of its first temporary. -/
def clash : Node :=
  .program none
    [.expression none (.assignment none "=" (.identifier none "t0") (.literal none (.int 1) "1")),
      .expression none (.assignment none "=" (.identifier none "x")
        (.binary none "+" (.identifier none "a") (.identifier none "b")))]

/-- The sum is stored over the value that the source gives to its variable. -/
theorem temporary_overwrites_variable :
    ∃ code c, clash.lowerCounting {} = .ok (code, c) ∧
      code = [.mov "t0" (.const (.int 1) "1") .unknown,
        .binary .add "t0" (.var "a") (.var "b") .unknown, .mov "x" (.temp "t0") .unknown] ∧
      clash.Names "t0" ∧ Allocates (.ofTree clash code c) "t0" ∧
      ∃ k, StoresAt (.ofTree clash code c) k "t0" := by
  have hlower : clash.lowerCounting {} = .ok ([.mov "t0" (.const (.int 1) "1") .unknown,
      .binary .add "t0" (.var "a") (.var "b") .unknown, .mov "x" (.temp "t0") .unknown], ⟨1, 0⟩) :=
    rfl
  have hallocates := (allocates_iff (lowers_ofTree hlower)).mpr ⟨0, le_rfl, Nat.one_pos, rfl⟩
  exact ⟨_, _, hlower, rfl, by decide, hallocates, allocates_iff_storesAt.mp hallocates⟩

end Sil
