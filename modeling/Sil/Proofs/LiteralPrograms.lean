import Mathlib
import Sil.Proofs.LiteralTokens

/-!
Programs that are one literal. Neither a mark nor a word is before a literal or after it, so nothing
is read with it, and the program has one statement with the value of the literal.
-/
namespace Sil.SourceText

/-- The characters that a string or a number can open with. -/
def literalOpenings : List Char := ['"', '\x27', '0', '1', '2', '3', '4', '5', '6', '7', '8', '9']

/-- A place at the end of the text, or before a string or a number: neither a space nor a mark nor a
word follows. -/
def Cursor.IsBare (c : Cursor) : Prop := ∀ d ∈ c.rest.head?, d ∈ literalOpenings

namespace Cursor.IsBare

open Scan

variable {c : Cursor}

theorem of_end (h : c.rest = []) : c.IsBare := by
  intro d hd
  rw [h] at hd
  cases hd

theorem rest_cases (h : c.IsBare) :
    c.rest = [] ∨ ∃ d ∈ literalOpenings, ∃ rest, c.rest = d :: rest := by
  cases hrest : c.rest with
  | nil => exact .inl rfl
  | cons d rest => exact .inr ⟨d, h d (by rw [hrest, List.head?_cons]; rfl), rest, rfl⟩

/-- Nothing that opens with another character is at such a place. -/
theorem startsWith_eq_false (h : c.IsBare) {s : String}
    (hs : s.toList.head?.any (fun d => !literalOpenings.contains d) = true) :
    c.startsWith s = false := by
  rw [startsWith]
  cases hchars : s.toList with
  | nil =>
    rw [hchars] at hs
    cases hs
  | cons d cs =>
    rw [hchars] at hs
    rcases h.rest_cases with hrest | ⟨e, he, rest, hrest⟩
    · rw [hrest]
      rfl
    · have hne : d ≠ e := by
        rintro rfl
        simp [he] at hs
      rw [hrest, List.isPrefixOf_cons_cons, beq_false_of_ne hne, Bool.false_and]

theorem skipTrivia_eq (h : c.IsBare) : c.skipTrivia = c := by
  have hlength : triviaLength .space 0 c.rest = 0 := by
    rcases h.rest_cases with hrest | ⟨d, hd, rest, hrest⟩ <;> rw [hrest]
    · rfl
    · fin_cases hd <;> rfl
  rw [Cursor.skipTrivia, hlength]
  rfl

theorem skipSpace_eq (h : c.IsBare) : c.skipSpace = c := by
  have hspace : c.rest.takeWhile isSpace = [] := by
    rcases h.rest_cases with hrest | ⟨d, hd, rest, hrest⟩ <;> rw [hrest]
    · rfl
    · fin_cases hd <;> rfl
  rw [Cursor.skipSpace, hspace]
  rfl

theorem nameLength_eq (h : c.IsBare) : nameLength c.rest = 0 := by
  rcases h.rest_cases with hrest | ⟨d, hd, rest, hrest⟩ <;> rw [hrest]
  · rfl
  · fin_cases hd <;> rfl

theorem punctuatorAt_eq (h : c.IsBare) : punctuatorAt c = "" := by
  have hall : ∀ s ∈ punctuators,
      s.toList.head?.any (fun d => !literalOpenings.contains d) = true := by
    decide +kernel
  have hnone : punctuators.find? c.startsWith = none := by
    rw [List.find?_eq_none]
    intro s hs
    rw [h.startsWith_eq_false (hall s hs)]
    exact Bool.false_ne_true
  unfold punctuatorAt
  split
  · rename_i hrest
    have hd := h '?' (by rw [hrest]; rfl)
    exact absurd hd (by decide)
  · rw [hnone]
    rfl

theorem skip_run (h : c.IsBare) : skip c = some (c, c) := by
  rw [Scan.skip_run, h.skipTrivia_eq]

theorem nextMark_run (h : c.IsBare) : nextMark c = some ("", c) := by
  show some (punctuatorAt c.skipTrivia, c) = _
  rw [h.skipTrivia_eq, h.punctuatorAt_eq]

theorem nextWord_run (h : c.IsBare) : Scan.nextWord c = some ("", c) := by
  show some (String.ofList (c.skipTrivia.rest.take (nameLength c.skipTrivia.rest)), c) = _
  rw [h.skipTrivia_eq, h.nameLength_eq]
  rfl

theorem nextChar_run (h : c.IsBare) : nextChar c = some (c.rest.head?, c) := by
  show some (c.skipTrivia.rest.head?, c) = _
  rw [h.skipTrivia_eq]

end Cursor.IsBare

section LoneTerm

open Scan

variable {g : Grammar} {c c' : Cursor} {t : Term}

theorem memberStep_run (h : c.IsBare) (start : Cursor) : memberStep g start c = some (none, c) := by
  unfold memberStep
  rw [bind_run h.nextMark_run]
  rfl

theorem callStep_run (h : c.IsBare) (hend : c.rest = []) (start : Cursor) :
    callStep g start c = some (none, c) := by
  unfold callStep
  rw [bind_run h.nextMark_run]
  show (do if (← nextChar) == some '\x60' then _ else return none : Scan (Option Term)) c = _
  rw [bind_run h.nextChar_run, hend, if_neg (by simp)]
  rfl

/-- At the end of the text nothing is added to a term. -/
theorem chain_run (hend : c.rest = []) (hsize : 0 < g.size) (start : Cursor)
    (ht : t.tree.kind ≠ "arrow_function") : chain g true start t c = some (t, c) := by
  obtain ⟨size, hsize⟩ := Nat.exists_eq_succ_of_ne_zero (Nat.ne_zero_of_lt hsize)
  rw [chain, if_neg ht, hsize]
  refine iterate_done size ?_
  rw [bind_run (memberStep_run (.of_end hend) start)]
  show (callStep g start >>= _) c = _
  rw [bind_run (callStep_run (.of_end hend) hend start)]
  rfl

/-- A term that goes on to the end of the text is a whole expression. -/
theorem fullTerm_run (hc : c.IsBare) (hend : c'.rest = []) (hsize : 0 < g.size) (noIn : Bool)
    (ht : t.tree.kind ≠ "arrow_function") (hprimary : primary g noIn c = some (t, c')) :
    fullTerm g noIn c = some (t, c') := by
  have hc' := Cursor.IsBare.of_end hend
  unfold fullTerm
  rw [bind_run hc.skip_run, bind_run hc.nextWord_run, if_neg (by simp), bind_run hprimary]
  dsimp only
  rw [bind_run (chain_run hend hsize c ht), bind_run hc'.nextMark_run]
  rfl

theorem operand_run (hc : c.IsBare) (noIn : Bool) (hfull : fullTerm g noIn c = some (t, c')) :
    operand g noIn c = some (t, c') := by
  obtain ⟨b, hahead⟩ : ∃ b, operandAhead c = some (b, c) := by
    unfold operandAhead
    rw [bind_run hc.nextWord_run, if_neg (by simp), bind_run hc.nextChar_run]
    cases c.rest.head? <;> exact ⟨_, rfl⟩
  have hafter : afterWord operandAhead c = some (b, c) := by
    unfold afterWord look
    rw [bind_run hc.nextWord_run, bind_run hc.skip_run, bind_run (take_run _ c)]
    show (operandAhead c).map _ = _
    rw [hahead]
    rfl
  unfold operand
  rw [bind_run hc.nextMark_run, bind_run hc.nextWord_run, if_neg (by simp), if_neg (by simp),
    if_neg (by simp), bind_run hafter, if_neg (by simp), if_neg (by simp), hfull]

theorem binary_run (hc : c.IsBare) (hend : c'.rest = []) (hsize : 0 < g.size) (noIn : Bool)
    (level : Nat) (hoperand : operand g noIn c = some (t, c')) :
    binary g noIn level c = some (t, c') := by
  have hc' := Cursor.IsBare.of_end hend
  obtain ⟨size, hsize⟩ := Nat.exists_eq_succ_of_ne_zero (Nat.ne_zero_of_lt hsize)
  have hahead : operatorAhead noIn c' = some (none, c') := by
    unfold operatorAhead
    rw [bind_run hc'.nextMark_run, if_pos (by simp), bind_run hc'.nextWord_run]
    rfl
  unfold binary
  rw [bind_run hc.skip_run, bind_run hoperand, hsize]
  refine iterate_done size ?_
  rw [bind_run hahead]
  rfl

theorem expression_run (hc : c.IsBare) (hend : c'.rest = []) (noIn : Bool)
    (hbinary : binary g noIn 0 c = some (t, c')) : expression g noIn c = some (t, c') := by
  unfold expression
  rw [bind_run hc.skip_run, bind_run hbinary, bind_run (Cursor.IsBare.of_end hend).nextMark_run]
  rfl

/-- A term alone in a text is a statement. -/
theorem expressionStatement_run (hc : c.IsBare) (hend : c'.rest = []) (ht : t.isExpression = true)
    (hexpression : g.expression false c = some (t, c')) :
    expressionStatement g c = some (tree "expression_statement" c c' [t.tree], c') := by
  have hvalue : g.value false c = some (t.tree, c') := by
    unfold Grammar.value
    rw [bind_run hexpression, bind_run (require_run ht c')]
    rfl
  have hexpressions : g.expressions false c = some (t.tree, c') := by
    unfold Grammar.expressions
    rw [bind_run hc.skip_run, bind_run hvalue, bind_run (Cursor.IsBare.of_end hend).nextMark_run]
    rfl
  have hends : endsHere true c' = some (true, c') := by
    unfold endsHere
    rw [bind_run (get_run c'), hend]
    rfl
  have hsemicolon : semicolon true c' = some ([], c') := by
    unfold semicolon
    rw [bind_run hends]
    rfl
  unfold expressionStatement
  rw [bind_run hc.skip_run, bind_run hexpressions, bind_run hsemicolon, bind_run (get_run c')]
  rfl

theorem statement_run (hc : c.IsBare) {s : ConcreteTree}
    (hstatement : expressionStatement g c = some (s, c')) : statement g c = some (s, c') := by
  have hmarkup : markupCommentAt c = false := by
    rw [markupCommentAt, hc.startsWith_eq_false (by decide +kernel),
      hc.startsWith_eq_false (by decide +kernel), Bool.or_self]
  have hwords : wordsAhead c = some (("", "", ""), c) := by
    unfold wordsAhead
    rw [bind_run hc.nextWord_run, if_pos (by simp), bind_run hc.nextMark_run]
    rfl
  unfold statement
  rw [bind_run (get_run c), hc.skipTrivia_eq, hmarkup, if_neg (by simp), bind_run hwords]
  exact hstatement

def programStep (g : Grammar) (body : List ConcreteTree) : Scan (Option (List ConcreteTree)) := do
  let c ← skip
  if c.rest.isEmpty then return none
  return some (body ++ [← g.statement])

/-- A statement that goes on to the end of the text is the whole program. -/
theorem program_run (hc : c.IsBare) (hopen : c.rest ≠ []) (hend : c'.rest = []) (hsize : 2 ≤ g.size)
    {s : ConcreteTree} (hstatement : g.statement c = some (s, c')) :
    program g c = some (tree "program" c c' [s], c') := by
  have hheader : hashBangLine c = some ([], c) := by
    unfold hashBangLine
    rw [bind_run (get_run c), hc.startsWith_eq_false (by decide +kernel), if_neg (by simp)]
    rfl
  have hc' := Cursor.IsBare.of_end hend
  obtain ⟨size, hsize⟩ := Nat.exists_eq_add_of_le' hsize
  have hmore : programStep g [] c = some (some [s], c') := by
    unfold programStep
    rw [bind_run hc.skip_run, if_neg (by simpa using hopen), bind_run hstatement]
    rfl
  have hdone : programStep g [s] c' = some (none, c') := by
    unfold programStep
    rw [bind_run hc'.skip_run, hend]
    rfl
  have hbody : iterate (programStep g) (size + 2) [] c = some ([s], c') := by
    rw [iterate_more (size + 1) hmore, iterate_done size hdone]
  unfold program
  rw [bind_run (get_run c), hc.skipSpace_eq, bind_run (set_run c c), bind_run hheader, hsize]
  show (iterate (programStep g) (size + 2) [] >>= _) c = _
  rw [bind_run hbody, bind_run hc'.skip_run, hend]
  rfl

end LoneTerm

/-- The outermost level can be taken off. -/
theorem Grammar.deepen_nested (depth : Nat) (g : Grammar) :
    deepen depth g.nested = (deepen depth g).nested := by
  induction depth generalizing g with
  | zero => rfl
  | succ depth ih => rw [deepen, deepen, ih]

theorem Grammar.size_deepen (depth : Nat) (g : Grammar) : (deepen depth g).size = g.size := by
  induction depth generalizing g with
  | zero => rfl
  | succ depth ih => rw [deepen, ih, nested]

section Programs

open Scan

/-- Digits up to the end of the text are a number. -/
theorem number_run {c : Cursor} (hc : c.IsBare) (hsome : c.rest ≠ [])
    (h : ∀ d ∈ c.rest, (Numeral.digit? 10 d).isSome = true) :
    number c = some (tree "number" c (c.advance c.rest.length) [], c.advance c.rest.length) := by
  have hpos : decide (0 < c.rest.length) = true := decide_eq_true (List.length_pos_iff.mpr hsome)
  unfold number
  rw [bind_run hc.skip_run, numberLength_digits h, bind_run (require_run hpos c),
    bind_run (take_run _ c), bind_run (get_run _)]
  rfl

/-- A term that is all of a text is the only statement of its program. -/
theorem read?_term {cs : List Char} {c' : Cursor} {t : Term} (hc : Cursor.IsBare { rest := cs })
    (hsome : cs ≠ []) (hend : c'.rest = []) (hkind : t.tree.kind ≠ "arrow_function")
    (ht : t.isExpression = true) (hprimary : ∀ g, primary g false { rest := cs } = some (t, c')) :
    read? cs = some (tree "program" { rest := cs } c'
      [tree "expression_statement" { rest := cs } c' [t.tree]]) := by
  have hgrammar : Grammar.deepen (cs.length + 2) (.empty (cs.length + 2)) =
      (Grammar.deepen cs.length (.empty (cs.length + 2))).nested.nested := by
    rw [← Grammar.deepen_nested, ← Grammar.deepen_nested]
    rfl
  have hsize : (Grammar.deepen cs.length (.empty (cs.length + 2))).size = cs.length + 2 :=
    Grammar.size_deepen ..
  rw [read?, hgrammar]
  generalize Grammar.deepen cs.length (.empty (cs.length + 2)) = g at hsize
  have hpos : 0 < g.size := by omega
  have hexpression : g.nested.expression false { rest := cs } = some (t, c') :=
    expression_run hc hend false (binary_run hc hend hpos false 0
      (operand_run hc false (fullTerm_run hc hend hpos false hkind (hprimary g))))
  have hstatement := statement_run hc (expressionStatement_run hc hend ht hexpression)
  have hprogram := program_run (g := g.nested.nested) hc hsome hend
      (hsize ▸ Nat.le_add_left 2 _) hstatement
  show Option.map _ (program g.nested.nested { rest := cs }) = _
  rw [hprogram]
  rfl

theorem nodeWith_expression {build : ConcreteTree → Except Error Node} {source : ByteArray}
    {t child : ConcreteTree} {n : Node} (hkind : t.kind = "expression_statement")
    (hpart : t.firstPart? = some child) (hnode : build child = .ok n) :
    Concrete.nodeWith build source t = .ok (.expression (some t.location) n) := by
  simp [Concrete.nodeWith, hkind, hpart, Concrete.need, hnode, ok_bind]

theorem nodeWith_loneStatement {build : ConcreteTree → Except Error Node} {source : ByteArray}
    {t child : ConcreteTree} {n : Node} (hkind : t.kind = "program")
    (hpart : Concrete.statementNodes t = [child]) (hnode : build child = .ok n) :
    Concrete.nodeWith build source t = .ok (.program (some t.location) [n]) := by
  simp [Concrete.nodeWith, hkind, hpart, hnode]

/-- The node of a program that is one term. -/
theorem ofSource_term {host : Host} {source : String} {c' : Cursor} {t : ConcreteTree} {n : Node}
    (hroom : 3 ≤ host.limits.construction)
    (hread : read? source.toList = some (tree "program" { rest := source.toList } c'
      [tree "expression_statement" { rest := source.toList } c' [t]]))
    (hnamed : t.named = true) (hcomment : t.isComment = false) (herror : t.hasError = false)
    (hnode : ∀ build, Concrete.nodeWith build source.toUTF8 t = .ok n) :
    ∃ loc, Node.ofSource host source = .ok (.program loc [.expression loc n]) := by
  have hpart :
      (tree "expression_statement" { rest := source.toList } c' [t]).firstPart? = some t := by
    simp [ConcreteTree.firstPart?, ConcreteTree.namedChildren, tree, ConcreteTree.children, hnamed,
      hcomment]
  obtain ⟨room, hroom⟩ := Nat.exists_eq_add_of_le' hroom
  have hstatement : Concrete.node source.toUTF8 (room + 2)
      (tree "expression_statement" { rest := source.toList } c' [t]) = .ok (.expression _ n) :=
    nodeWith_expression rfl hpart (hnode (Concrete.node source.toUTF8 room))
  have hprogram : Concrete.node source.toUTF8 (room + 3)
      (tree "program" { rest := source.toList } c'
        [tree "expression_statement" { rest := source.toList } c' [t]]) =
        .ok (.program _ [.expression _ n]) :=
    nodeWith_loneStatement rfl rfl hstatement
  have hok : (tree "program" { rest := source.toList } c'
      [tree "expression_statement" { rest := source.toList } c' [t]]).hasError = false := by
    refine hasError_tree fun s hs => ?_
    rw [List.mem_singleton.mp hs]
    refine hasError_tree fun s hs => ?_
    rw [List.mem_singleton.mp hs, herror]
  refine ⟨some (Extent.location (Cursor.extentTo { rest := source.toList } c')), ?_⟩
  rw [Node.ofSource, parse, hread]
  show Node.ofConcrete host.limits source.toUTF8 _ = _
  rw [Node.ofConcrete, hok, if_neg Bool.false_ne_true, hroom]
  show (Concrete.node source.toUTF8 (room + 3) _ >>= Concrete.withBody) = _
  rw [hprogram]
  rfl

theorem primary_string {c c' : Cursor} {t : ConcreteTree} {quote : Char} (hc : c.IsBare)
    (hhead : c.rest.head? = some quote) (hquote : quote = '"' ∨ quote = '\x27')
    (hstring : string c = some (t, c')) (g : Grammar) :
    primary g false c = some (⟨t, .other⟩, c') := by
  unfold primary
  rw [bind_run hc.nextChar_run, hhead]
  rcases hquote with rfl | rfl
  · exact bind_run hstring
  · exact bind_run hstring

theorem primary_number {c c' : Cursor} {t : ConcreteTree} {d : Char} (hc : c.IsBare)
    (hhead : c.rest.head? = some d) (hd : (Numeral.digit? 10 d).isSome = true)
    (hnumber : number c = some (t, c')) (g : Grammar) :
    primary g false c = some (⟨t, .other⟩, c') := by
  have hopening := hc d hhead
  unfold primary
  rw [bind_run hc.nextChar_run, hhead]
  fin_cases hopening <;> first | exact absurd hd (by decide) | exact bind_run hnumber

theorem place_source (source : String) : Place source.toUTF8 { rest := source.toList } :=
  ⟨[], by simp, by simp⟩

/-- A string literal alone is a program with one statement. -/
theorem ofSource_string {host : Host} (hroom : 3 ≤ host.limits.construction)
    (l : StringLiteral) : ∃ loc place, Node.ofSource host l.spelling =
    .ok
      (.program loc
        [.expression loc
          (.literal place (.str (l.items.flatMap StringItem.read)) l.spelling)]) := by
  have hchars : l.spelling.toList = l.chars := String.toList_ofList
  have hbare : Cursor.IsBare { rest := l.spelling.toList } := by
    intro d hd
    rw [hchars] at hd
    cases hd
    rcases l.isQuote with h | h <;> rw [h] <;> decide
  have hrest : l.spelling.toList = l.chars ++ [] := by rw [hchars, List.append_nil]
  obtain ⟨parts, hstring, ⟨hkind, htext, groups, hitems, hparts⟩, herror⟩ :=
    Scan.string_run l (place_source l.spelling) hrest hbare.skipTrivia_eq
  have hhead : l.spelling.toList.head? = some l.quote := by
    rw [hchars]
    rfl
  have hend : (Cursor.advance { rest := l.spelling.toList } l.chars.length).rest = [] := by
    rw [Cursor.rest_advance, hrest, List.append_nil, List.drop_length]
  have hread := read?_term hbare (by rw [hchars]; exact List.cons_ne_nil _ _) hend
      (by simp [hkind]) rfl
    (primary_string hbare hhead l.isQuote hstring)
  obtain ⟨loc, hsource⟩ :=
    ofSource_term hroom hread rfl (by simp [ConcreteTree.isComment, hkind]) herror
    fun build => Concrete.nodeWith_string hkind (Concrete.stringValue_eq hparts) htext
  rw [hitems] at hsource
  exact ⟨loc, _, hsource⟩

theorem mem_literalOpenings {d : Char} (hd : (Numeral.digit? 10 d).isSome = true) :
    d ∈ literalOpenings := by
  have hrange : 0x30 ≤ d.toNat ∧ d.toNat ≤ 0x39 := by
    by_contra hrange
    have hnone : Numeral.digit? 10 d = none := by
      rw [Numeral.digit?]
      simp only [Bool.and_eq_true, decide_eq_true_eq]
      split_ifs <;> first | rfl | omega
    rw [hnone] at hd
    cases hd
  obtain ⟨hlow, hhigh⟩ := hrange
  rw [← Char.ofNat_toNat d]
  generalize d.toNat = n at hlow hhigh
  interval_cases n <;> decide

/-- An integer literal of digits alone is a program with one statement. -/
theorem ofSource_digits {host : Host} (hroom : 3 ≤ host.limits.construction)
    {l : IntegerLiteral} (hfits : l.Fits) (hsome : l.chars ≠ [])
    (hdigits : ∀ d ∈ l.chars, (Numeral.digit? 10 d).isSome = true) :
    ∃ loc place, Node.ofSource host l.spelling =
      .ok (.program loc [.expression loc (.literal place (.int l.value) l.spelling)]) := by
  have hchars : l.spelling.toList = l.chars := String.toList_ofList
  rw [← hchars] at hsome hdigits
  obtain ⟨d, rest, hrest⟩ := List.exists_cons_of_ne_nil hsome
  have hhead : l.spelling.toList.head? = some d := by rw [hrest, List.head?_cons]
  have hd := hdigits d (hrest ▸ List.mem_cons_self)
  have hbare : Cursor.IsBare { rest := l.spelling.toList } := by
    intro e he
    cases hhead.symm.trans he
    exact mem_literalOpenings hd
  have hspans := (place_source l.spelling).spans l.spelling.toList.length
  rw [List.take_length] at hspans
  have hnumber := number_run hbare hsome hdigits
  have hread := read?_term hbare hsome (by simp) (by simp [tree, ConcreteTree.kind]) rfl
    (primary_number hbare hhead hd hnumber)
  have htext : Concrete.text l.spelling.toUTF8 (tree "number" { rest := l.spelling.toList }
      (Cursor.advance { rest := l.spelling.toList } l.spelling.toList.length) []) =
      .ok l.spelling := by
    rw [hspans.text_eq, String.ofList_toList]
  obtain ⟨loc, hsource⟩ := ofSource_term hroom hread rfl rfl rfl fun build =>
    Concrete.nodeWith_integer hfits rfl htext
  exact ⟨loc, _, hsource⟩

end Programs

end Sil.SourceText
