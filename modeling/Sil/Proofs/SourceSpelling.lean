import Mathlib
import Sil.Proofs.SourceStatements
import Sil.Proofs.Subtree

/-!
Names and literals keep the spelling that they have in a source. In a tree that was read, a name is
on one line, and so is the spelling of a literal that is no string; a string can go over several
lines that are continued. Lowering passes the spellings on to the code, where all other names are
made up.
-/
namespace Sil

/-- What a computation gives has a property, if it gives anything. -/
def Gives {ε α : Type} (x : Except ε α) (P : α → Prop) : Prop := ∀ a, x = .ok a → P a

namespace Gives

variable {ε α β : Type} {x : Except ε α} {P : α → Prop} {Q : β → Prop}

theorem pure {a : α} (h : P a) : Gives (Pure.pure a : Except ε α) P := by
  intro b hb
  cases hb
  exact h

theorem error (e : ε) : Gives (.error e : Except ε α) P := by
  intro b hb
  cases hb

theorem any : Gives x fun _ => True := fun _ _ => trivial

theorem bind {f : α → Except ε β} (hx : Gives x P) (hf : ∀ a, P a → Gives (f a) Q) :
    Gives (x >>= f) Q := by
  intro b hb
  obtain ⟨a, ha, hb⟩ := bind_eq_ok.mp hb
  exact hf a (hx a ha) b hb

theorem mapM {f : β → Except ε α} {xs : List β} (h : ∀ b ∈ xs, Gives (f b) P) :
    Gives (xs.mapM f) fun as => ∀ a ∈ as, P a := by
  induction xs with
  | nil => exact .pure (by simp)
  | cons b rest ih =>
    rw [List.mapM_cons]
    refine (h b List.mem_cons_self).bind fun a ha => ?_
    refine (ih fun c hc => h c (List.mem_cons_of_mem b hc)).bind fun as has => .pure ?_
    simpa using ⟨ha, has⟩

end Gives

namespace Node

/-- A node whose name, or value and spelling, can stand in a source. -/
def IsWritten : Node → Prop
  | .identifier _ name => '\n' ∉ name.toList
  | .literal loc value raw => raw ≠ "" ∧ (literal loc value raw).isScalar ∧
    ('\n' ∈ raw.toList → (∃ s, value = .str s) ∧ SourceText.IsContinued raw.toList)
  | _ => True

@[simp] theorem isWritten_identifier {loc : Option Location} {name : String} :
    (identifier loc name).IsWritten ↔ '\n' ∉ name.toList := Iff.rfl

/-- A tree whose names and spellings can all stand in a source. -/
def Written (n : Node) : Prop := ∀ m, Subtree m n → m.IsWritten

theorem written_iff {n : Node} : n.Written ↔ n.IsWritten ∧ ∀ k ∈ n.children, k.Written :=
  forall_subtree

theorem Written.root {n : Node} (h : n.Written) : n.IsWritten := (written_iff.mp h).1

theorem Written.child {k n : Node} (h : n.Written) (hk : k ∈ n.children) : k.Written :=
  (written_iff.mp h).2 k hk

end Node

namespace SourceText.Sound

variable {source : ByteArray} {t : ConcreteTree}

theorem children (h : Sound source t) : ∀ c ∈ t.children, Sound source c := by
  obtain ⟨-, below⟩ := h
  exact below

theorem token (h : Sound source t) (hkind : t.kind ∈ tokenKinds) :
    Gives (Concrete.text source t) fun raw => TokenText t.kind raw.toList := by
  obtain ⟨own, -⟩ := h
  obtain ⟨text, hspans, htext⟩ := own hkind
  intro raw hraw
  rw [hspans.text_eq] at hraw
  cases hraw
  rwa [String.toList_ofList]

theorem namedChildren (h : Sound source t) : ∀ c ∈ t.namedChildren, Sound source c :=
  fun c hc => h.children c (List.mem_filter.mp hc).1

theorem inField? (h : Sound source t) (name : String) : ∀ c ∈ t.inField? name, Sound source c :=
  fun c hc => h.children c (List.mem_of_find?_eq_some hc)

theorem firstPart? (h : Sound source t) : ∀ c ∈ t.firstPart?, Sound source c :=
  fun c hc => h.namedChildren c (List.mem_of_find?_eq_some hc)

end SourceText.Sound

namespace Concrete
open SourceText

variable {source : ByteArray} {t : ConcreteTree} {build : ConcreteTree → Except Error Node}

theorem gives_orFault {α : Type} {x : Except Fault α} {P : α → Prop} (h : Gives x P) :
    Gives (orFault x) P := by
  intro a ha
  cases x with
  | error f => cases ha
  | ok b =>
    cases ha
    exact h a rfl

theorem gives_loopClause {clause : Option ConcreteTree} (h : ∀ c ∈ clause, Sound source c) :
    Gives (loopClause clause) fun u => ∀ c ∈ u, Sound source c := by
  cases clause with
  | none => exact .pure (by simp)
  | some t =>
    have ht := h t rfl
    unfold loopClause
    dsimp only
    split
    · exact .pure (by simp)
    split
    · cases hpart : t.firstPart? with
      | none => exact .error _
      | some part => exact .pure fun c hc => ht.firstPart? c (hpart.trans hc)
    · exact .pure h

theorem isScalar_number {digits : List Char} {value : Json} {loc : Option Location} {raw : String}
    (h : NumberLiteral.value digits = .ok value) : (Node.literal loc value raw).isScalar := by
  unfold NumberLiteral.value at h
  repeat' split at h
  all_goals cases h
  all_goals rfl

/-- A number is spelled on one line, and not by nothing. -/
theorem gives_number {raw : String} {loc : Location} (h : '\n' ∉ raw.toList) :
    Gives (NumberLiteral.node raw loc) Node.Written := by
  unfold NumberLiteral.node
  dsimp only
  split
  · exact .pure (Node.written_iff.mpr ⟨trivial, by simp [Node.children]⟩)
  · intro n hn
    obtain ⟨value, hvalue, hn⟩ := bind_eq_ok.mp hn
    cases hn
    refine Node.written_iff.mpr ⟨⟨?_, isScalar_number hvalue, fun hfeed => absurd hfeed h⟩,
      by simp [Node.children]⟩
    rintro rfl
    cases hvalue

section

variable (hbuild : ∀ t, Sound source t → Gives (build t) Node.Written)
include hbuild

theorem gives_optional {o : Option ConcreteTree} (h : ∀ c ∈ o, Sound source c) :
    Gives (optional build o) fun n => ∀ m ∈ n, m.Written := by
  cases o with
  | none => exact .pure (by simp)
  | some t => exact (hbuild t (h t rfl)).bind fun n hn => .pure (by simpa using hn)

theorem gives_child {α : Type} {o : Option ConcreteTree} {k : Node → Except Error α} {P : α → Prop}
    (h : ∀ c ∈ o, Sound source c) (hk : ∀ n, n.Written → Gives (k n) P) :
    Gives (need o >>= fun u => build u >>= k) P := by
  cases o with
  | none => exact .error _
  | some t => exact (hbuild t (h t rfl)).bind hk

theorem gives_clause {α : Type} {o : Option ConcreteTree} {k : Option Node → Except Error α}
    {P : α → Prop} (h : ∀ c ∈ o, Sound source c)
    (hk : ∀ n, (∀ m ∈ n, Node.Written m) → Gives (k n) P) :
    Gives (loopClause o >>= fun u => optional build u >>= k) P :=
  (gives_loopClause h).bind fun _ hu => (gives_optional hbuild hu).bind hk

theorem gives_operands {left right : Option ConcreteTree} {make : Node → Node → Node}
    (hl : ∀ c ∈ left, Sound source c) (hr : ∀ c ∈ right, Sound source c)
    (hmake : ∀ l r, l.Written → r.Written → (make l r).Written) :
    Gives (do
      let l ← build (← need left)
      let r ← build (← need right)
      return make l r) Node.Written :=
  gives_child hbuild hl fun l hwl => gives_child hbuild hr fun r hwr => .pure (hmake l r hwl hwr)

/-- A node of a sound tree is written if the nodes below it are. -/
theorem gives_nodeWith (ht : Sound source t) : Gives (nodeWith build source t) Node.Written := by
  have hitems {ts : List ConcreteTree} (h : ∀ c ∈ ts, c ∈ t.namedChildren) :
      Gives (ts.mapM build) fun ns => ∀ n ∈ ns, n.Written :=
    .mapM fun c hc => hbuild c (ht.namedChildren c (h c hc))
  have htoken := ht.token
  unfold nodeWith
  generalize t.kind = kind at htoken ⊢
  dsimp only
  -- The kinds come in the order in which `nodeWith` has them.
  split
  case h_1 | h_2 =>
    refine (hitems fun c hc => (List.mem_filter.mp hc).1).bind fun body hbody => .pure ?_
    exact Node.written_iff.mpr ⟨trivial, hbody⟩
  case h_3 =>
    refine gives_child hbuild ht.firstPart? fun e he => .pure ?_
    exact Node.written_iff.mpr ⟨trivial, by simpa [Node.children] using he⟩
  case h_4 | h_5 =>
    cases t.children with
    | nil => exact .error _
    | cons word rest =>
      refine Gives.any.bind fun kind _ => ?_
      refine (hitems fun c hc => (List.mem_filter.mp hc).1).bind fun ds hds => .pure ?_
      exact Node.written_iff.mpr ⟨trivial, hds⟩
  case h_6 =>
    refine gives_child hbuild (ht.inField? _) fun id hid => ?_
    refine (gives_optional hbuild (ht.inField? _)).bind fun init hinit => .pure ?_
    exact Node.written_iff.mpr ⟨trivial, by simpa [Node.children] using ⟨hid, hinit⟩⟩
  case h_7 =>
    refine gives_child hbuild (ht.inField? _) fun test htest => ?_
    refine gives_child hbuild (ht.inField? _) fun consequent hconsequent => ?_
    refine (gives_optional hbuild ?_).bind fun alternate halternate => .pure ?_
    · intro c hc
      obtain ⟨a, ha, hc⟩ := Option.bind_eq_some_iff.mp hc
      split at hc
      · exact (ht.inField? _ a ha).firstPart? c hc
      · cases hc
        exact ht.inField? _ c ha
    · exact Node.written_iff.mpr
        ⟨trivial, by simpa [Node.children] using ⟨htest, hconsequent, halternate⟩⟩
  case h_8 =>
    refine gives_child hbuild (ht.inField? _) fun test htest => ?_
    refine gives_child hbuild (ht.inField? _) fun body hbody => .pure ?_
    exact Node.written_iff.mpr ⟨trivial, by simpa [Node.children] using ⟨htest, hbody⟩⟩
  case h_9 =>
    refine gives_clause hbuild (ht.inField? _) fun init hinit => ?_
    refine gives_clause hbuild (ht.inField? _) fun test htest => ?_
    refine gives_clause hbuild ?_ fun update hupdate => ?_
    · intro c hc
      cases hupdate : t.inField? "increment" with
      | none =>
        rw [hupdate] at hc
        exact ht.inField? _ c hc
      | some u =>
        rw [hupdate] at hc
        cases hc
        exact ht.inField? _ c hupdate
    · refine gives_child hbuild (ht.inField? _) fun body hbody => .pure ?_
      refine Node.written_iff.mpr ⟨trivial, ?_⟩
      simp only [Node.children, List.mem_append, List.mem_singleton]
      rintro k (((hk | hk) | hk) | rfl)
      · exact hinit k (Option.mem_toList.mp hk)
      · exact htest k (Option.mem_toList.mp hk)
      · exact hupdate k (Option.mem_toList.mp hk)
      · exact hbody
  case h_10 =>
    refine Gives.bind (.mapM fun c hc => hbuild c ?_) fun params hparams => ?_
    · cases hlist : t.inField? "parameters" with
      | none => simp [hlist] at hc
      | some list =>
        rw [hlist] at hc
        exact (ht.inField? _ list hlist).namedChildren c (List.mem_filter.mp hc).1
    · refine gives_child hbuild (ht.inField? _) fun id hid => ?_
      refine gives_child hbuild (ht.inField? _) fun body hbody => .pure ?_
      refine Node.written_iff.mpr ⟨trivial, ?_⟩
      simp only [Node.children, List.cons_append, List.mem_cons, List.mem_append, List.mem_nil_iff,
        or_false]
      rintro k (rfl | hk | rfl)
      · exact hid
      · exact hparams k hk
      · exact hbody
  case h_11 =>
    refine (gives_optional hbuild ht.firstPart?).bind fun argument hargument => .pure ?_
    exact Node.written_iff.mpr ⟨trivial, by simpa [Node.children] using hargument⟩
  case h_12 | h_13 =>
    refine (gives_orFault (htoken (by simp))).bind fun name hname => .pure ?_
    exact Node.written_iff.mpr ⟨hname, by simp [Node.children]⟩
  case h_14 => exact gives_orFault ((htoken (by simp)).bind fun raw hraw => gives_number hraw)
  case h_15 =>
    refine Gives.any.bind fun value _ => (gives_orFault (htoken (by simp))).bind fun raw hraw =>
      .pure ?_
    obtain ⟨hsome, hfeeds⟩ := hraw
    refine Node.written_iff.mpr ⟨⟨?_, rfl, fun hfeed => ⟨⟨value, rfl⟩, hfeeds hfeed⟩⟩,
      by simp [Node.children]⟩
    rintro rfl
    exact hsome rfl
  case h_16 | h_17 | h_18 =>
    exact .pure (Node.written_iff.mpr ⟨⟨by decide, rfl, by simp⟩, by simp [Node.children]⟩)
  case h_19 =>
    cases t.inField? "operator" <|> t.children[1]? with
    | none => exact .error _
    | some word =>
      refine Gives.any.bind fun word _ => Gives.any.bind fun operator _ => ?_
      refine gives_operands hbuild (ht.inField? _) (ht.inField? _) fun left right hleft hright => ?_
      split <;> exact Node.written_iff.mpr ⟨trivial, by simpa [Node.children] using ⟨hleft, hright⟩⟩
  case h_20 | h_21 =>
    have hassignment (operator : String) (left right : Node) (hleft : left.Written)
        (hright : right.Written) :
        (Node.assignment (some t.location) operator left right).Written :=
      Node.written_iff.mpr ⟨trivial, by simpa [Node.children] using ⟨hleft, hright⟩⟩
    cases t.inField? "operator" with
    | none => exact gives_operands hbuild (ht.inField? _) (ht.inField? _) (hassignment "=")
    | some word =>
      refine Gives.any.bind fun operator _ => ?_
      exact gives_operands hbuild (ht.inField? _) (ht.inField? _) (hassignment operator)
  case h_22 =>
    cases hpart : t.firstPart? with
    | none => exact .error _
    | some part => exact hbuild part (ht.firstPart? part hpart)
  case h_23 => exact .pure (Node.written_iff.mpr ⟨trivial, by simp [Node.children]⟩)

end

/-- The nodes of a sound tree are written. -/
theorem gives_node (room : Nat) (ht : Sound source t) :
    Gives (node source room t) Node.Written := by
  induction room generalizing t with
  | zero => exact .error _
  | succ room ih => exact gives_nodeWith (fun t ht => ih ht) ht

end Concrete

theorem Concrete.eq_of_withBody {n tree : Node} (h : Concrete.withBody n = .ok tree) :
    tree = n := by
  unfold Concrete.withBody at h
  split at h <;> cases h <;> rfl

/-- A tree without errors was read from its source. -/
theorem SourceText.read?_eq_parse {recovery : Recovery} {source : String}
    (h : (parse recovery source).hasError = false) :
    read? source.toList = some (parse recovery source) := by
  unfold parse at h ⊢
  split at h
  · rename_i root hread
    rw [hread]
  · rw [recovery.hasError] at h
    cases h

/-- The tree of a source is written. -/
theorem Node.written_ofText {host : Host} {source : Text} {tree : Node}
    (h : Node.ofText host source = .ok tree) : tree.Written := by
  unfold Node.ofText at h
  split at h
  · rename_i s _
    unfold Node.ofSource Node.ofConcrete at h
    split at h
    · cases h
    · rename_i hclean
      have hread := SourceText.read?_eq_parse (Bool.eq_false_iff.mpr hclean)
      obtain ⟨n, hn, hbody⟩ := bind_eq_ok.mp h
      rw [String.toUTF8_eq_toByteArray, ← String.utf8Encode_toList] at hn
      rw [Concrete.eq_of_withBody hbody]
      exact Concrete.gives_node _ (SourceText.sound_of_read? hread) n hn
  · cases h

/-- The literals of a tree that comes from a source are scalars. -/
theorem Node.Written.isScalar {tree m : Node} (h : tree.Written) (hm : Subtree m tree) :
    m.isScalar := by
  have hwritten := h m hm
  cases m with
  | literal loc value raw => exact hwritten.2.1
  | _ => rfl

/-- An operand that is on one line unless it is a string that is continued. -/
def Operand.Written (o : Operand) : Prop :=
  '\n' ∈ o.text.toList → ∃ s raw, o = .const (.str s) raw ∧ SourceText.IsContinued raw.toList

/-- An instruction whose names are on one line, and its operands as far as they can be. A label has
no operands. -/
def Instruction.Written (i : Instruction) : Prop :=
  (∀ s ∈ i.name.toList ++ i.dest.toList ++ i.label.toList, '\n' ∉ s.toList) ∧
    (∀ o ∈ i.operands, o.Written) ∧ (i.opcode = .label → i.operands = [])

namespace Instruction

@[simp] theorem decl_written {name : String} {loc : Location} :
    (decl name loc).Written ↔ '\n' ∉ name.toList := by simp [Written, decl]

@[simp] theorem mov_written {dest : String} {source : Operand} {loc : Location} :
    (mov dest source loc).Written ↔ '\n' ∉ dest.toList ∧ source.Written := by simp [Written, mov]

@[simp] theorem binary_written {op : BinaryOp} {dest : String} {left right : Operand}
    {loc : Location} :
    (binary op dest left right loc).Written ↔
      '\n' ∉ dest.toList ∧ left.Written ∧ right.Written := by
  simp [Written, binary]

@[simp] theorem cmp_written {source : Operand} {loc : Location} :
    (cmp source loc).Written ↔ source.Written := by simp [Written, cmp]

@[simp] theorem jumpIfFalse_written {label : String} {loc : Location} :
    (jumpIfFalse label loc).Written ↔ '\n' ∉ label.toList := by simp [Written, jumpIfFalse]

@[simp] theorem jumpIfTrue_written {label : String} {loc : Location} :
    (jumpIfTrue label loc).Written ↔ '\n' ∉ label.toList := by simp [Written, jumpIfTrue]

@[simp] theorem jump_written {label : String} {loc : Location} :
    (jump label loc).Written ↔ '\n' ∉ label.toList := by simp [Written, jump]

@[simp] theorem mark_written {label : String} : (mark label).Written ↔ '\n' ∉ label.toList := by
  simp [Written, mark]

@[simp] theorem func_written {name : String} {loc : Location} :
    (func name loc).Written ↔ '\n' ∉ name.toList := by simp [Written, func]

@[simp] theorem param_written {name : String} {loc : Location} :
    (param name loc).Written ↔ '\n' ∉ name.toList := by simp [Written, param]

@[simp] theorem endFunc_written {loc : Location} : (endFunc loc).Written := by
      simp [Written, endFunc]

@[simp] theorem ret_written {value : Option Operand} {loc : Location} :
    (ret value loc).Written ↔ ∀ o ∈ value, o.Written := by simp [Written, ret]

end Instruction

namespace Lowering
open Counters

theorem feed_not_mem_digits (n : Nat) : '\n' ∉ Nat.toDigits 10 n :=
  fun h => absurd (Nat.isDigit_of_mem_toDigits (by decide) (by decide) h) (by decide)

@[simp] theorem feed_not_mem_tempName (n : Nat) : '\n' ∉ (tempName n).toList := by
  simp [tempName, feed_not_mem_digits]

@[simp] theorem feed_not_mem_labelName (n : Nat) : '\n' ∉ (labelName n).toList := by
  simp [labelName, feed_not_mem_digits]

theorem written_var {name : String} (h : '\n' ∉ name.toList) : (Operand.var name).Written :=
  fun hfeed => absurd hfeed h

theorem written_temp (n : Nat) : (Operand.temp (tempName n)).Written :=
  fun hfeed => absurd hfeed (feed_not_mem_tempName n)

/-- The value of an expression is spelled as the literal or the name that it comes from. -/
theorem value_written {f : Bool} {c c' : Counters} {n : Node} {value : Operand}
    {code : List Instruction} (h : Lowers ⟨f, c, .expr n value, code, c'⟩)
    (hn : (Phrase.expr n value).Throughout Node.IsWritten) :
    value.Written := by
  replace hn : n.Written := hn n (List.mem_singleton_self n)
  cases h with
  | intro rule parts =>
    cases rule with
    | literal h =>
      obtain ⟨hraw, -, hfeeds⟩ := hn.root
      rw [Operand.literal, if_pos hraw] at h
      cases h
      intro hfeed
      obtain ⟨⟨s, rfl⟩, hcontinued⟩ := hfeeds hfeed
      exact ⟨s, _, rfl, hcontinued⟩
    | identifier => exact written_var hn.root
    | assignment => exact written_var (hn.child List.mem_cons_self).root
    | binary | logical => exact written_temp _

private theorem first_name {n : Node} {loc : Option Location} {name : String} {rest : List Node}
    (hn : n.Written) (hchildren : n.children = .identifier loc name :: rest) :
    '\n' ∉ name.toList := by
  have hid : (Node.identifier loc name).Written :=
    hn.child (by rw [hchildren]; exact List.mem_cons_self)
  exact hid.root

private theorem own_written {f c p pieces c'} (rule : Rule f c p pieces c')
    (parts : EachPart Lowers pieces) (hp : p.Throughout Node.IsWritten) :
    EachOwn Instruction.Written pieces := by
  have hparts := rule.throughout hp
  cases rule with
  | function h =>
    have hn : Node.Written _ := hp _ (List.mem_singleton_self _)
    refine ⟨by simpa using first_name hn rfl,
      (eachOwn_map_own _ _).mpr ⟨fun i hi => ?_, by simp [EachOwn]⟩⟩
    obtain ⟨loc, name, hmem, rfl⟩ := parameters_eq_ok h i hi
    have hparam : (Node.identifier loc name).Written := hn.child (by simp [Node.children, hmem])
    simpa using hparam.root
  | logical h =>
    obtain ⟨hl, hr, -⟩ := parts
    obtain ⟨wl, wr, -⟩ := hparts
    obtain ⟨-, rfl⟩ | ⟨-, rfl⟩ := shortCut?_eq_some.mp h <;>
      simp [EachOwn, value_written hl wl, value_written hr wr]
  | binary =>
    obtain ⟨hl, hr, -⟩ := parts
    obtain ⟨wl, wr, -⟩ := hparts
    simp [EachOwn, value_written hl wl, value_written hr wr]
  | declare =>
    have hname := first_name (hp _ (List.mem_singleton_self _)) rfl
    simp [EachOwn, hname]
  | assignment | initialise =>
    have hname := first_name (hp _ (List.mem_singleton_self _)) rfl
    simp [EachOwn, hname, value_written parts.1 hparts.1]
  | forLoop => simp [EachOwn, value_written parts.2.1 hparts.2.1]
  | conditional | alternative | whileLoop | retValue =>
    simp [EachOwn, value_written parts.1 hparts.1]
  | _ => simp [EachOwn]

/-- The code of a tree that was read is written as far as the source is. -/
theorem lowers_written {s : Segment} (h : Lowers s) (hs : s.phrase.Throughout Node.IsWritten) :
    ∀ i ∈ s.code, i.Written :=
  h.forall_code_throughout own_written hs

theorem written_of_lower {limits : Limits} {tree : Node} {code : List Instruction}
    (h : tree.lower limits = .ok code) (htree : tree.Written) :
    ∀ i ∈ code, i.Written := by
  obtain ⟨c, hlowers⟩ := lowers_of_lower h
  refine lowers_written hlowers fun n hn => ?_
  rw [List.mem_singleton.mp hn]
  exact htree

end Lowering
end Sil
