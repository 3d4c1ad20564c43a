import Mathlib
import Sil.SourceText.Markup
import Sil.SourceText.Expression
import Sil.Proofs.SourceReading

/-!
Functions, expressions and markup are read if the parts that nest in them are (`Grammar.Reads`). The
productions come in the order in which they are defined, those first that have no nested parts.
-/
set_option mvcgen.warning false

namespace Sil.SourceText
open Std.Do Scan

-- With these unfolded, the rest of a parser would be run at every step of it.
attribute [local irreducible] StateT.bind Cursor.nextWord punctuatorAt

variable {source : ByteArray} {g : Grammar}

@[spec] theorem reads_itemsUntil {α : Type} [Traced α] (closing : String) {item : Scan α}
    (hitem : Reads source item) : Reads source (itemsUntil g closing item) := by
  mvcgen [itemsUntil, hitem]
  all_goals simp_all [or_imp]

@[spec] theorem reads_nextChar : Reads source nextChar := by
  mvcgen [nextChar]
  all_goals simp_all

@[spec] theorem reads_privateName : Reads source privateName := by
  mvcgen [privateName]
  all_goals simp_all

@[spec] theorem reads_bindingPattern {p : Scan Term} (hp : Reads source p) :
    Reads source (bindingPattern p) := by
  mvcgen [bindingPattern, hp]
  all_goals simp_all [sound_asPattern]

@[spec] theorem reads_isModifier (w : String) : Reads source (isModifier w) := by
  mvcgen [isModifier]

@[spec] theorem reads_modifiers : Reads source (modifiers g) := by
  mvcgen [modifiers]
  all_goals simp_all

@[spec] theorem reads_regex : Reads source regex := by
  mvcgen [regex]
  all_goals simp_all

theorem sound_getD {o : Option Term} {t : Term} (ho : ∀ a, o = some a → Sound source a.tree)
    (ht : Sound source t.tree) : Sound source (o.getD t).tree := by
  cases o with
  | none => exact ht
  | some a => exact ho a rfl

/-- A name goes from the place of the next token on and stays on its line. -/
theorem identifier_spec (start : Cursor) : ⦃fun c => ⌜c = start⌝⦄ identifier
    ⦃⇓? t c => ⌜∃ n, c = start.skipTrivia.advance n ∧ OnOneLine n start.skipTrivia.rest ∧
      t.children = []⌝⦄ := by
  mvcgen [identifier, -reads_identifier]
  rename_i c hc hname
  subst hc
  exact ⟨_, rfl, onOneLine_nextWord c, rfl⟩

@[spec] theorem reads_wordNode {kind : String} (h : kind ∉ tokenKinds) :
    Reads source (wordNode kind) := by
  mvcgen [wordNode]
  all_goals simp_all

@[spec] theorem reads_importTerm : Reads source importTerm := by
  mvcgen [importTerm]
  all_goals simp_all

@[spec] theorem reads_memberName : Reads source memberName := by
  mvcgen [memberName]
  all_goals simp_all

@[spec] theorem reads_operandAhead : Reads source operandAhead := by
  unfold operandAhead
  generalize "`\"'([\x7b!~".toList = signs
  mvcgen
  all_goals simp_all

@[spec] theorem reads_operatorAhead (noIn : Bool) : Reads source (operatorAhead noIn) := by
  mvcgen [operatorAhead]
  all_goals simp_all

@[spec] theorem reads_markupName : Reads source markupName := by
  mvcgen [markupName]
  all_goals simp_all +zetaDelta

@[spec] theorem reads_markupString : Reads source markupString := by
  mvcgen [markupString]
  all_goals simp_all +zetaDelta

@[spec] theorem reads_sign (c : Char) : Reads source (sign c) := by
  mvcgen [sign]
  all_goals simp_all

@[spec] theorem reads_closingTag : Reads source closingTag := by
  mvcgen [closingTag]
  all_goals simp_all

structure Grammar.Reads (source : ByteArray) (g : Grammar) : Prop where
  expression (noIn : Bool) : SourceText.Reads source (g.expression noIn)
  binary (noIn : Bool) (level : Nat) : SourceText.Reads source (g.binary noIn level)
  operand (noIn : Bool) : SourceText.Reads source (g.operand noIn)
  constructor : SourceText.Reads source g.constructor
  statement : SourceText.Reads source g.statement
  element : SourceText.Reads source g.element

attribute [spec] Grammar.Reads.expression Grammar.Reads.binary Grammar.Reads.operand
  Grammar.Reads.constructor Grammar.Reads.statement Grammar.Reads.element

variable (hg : g.Reads source)
include hg

@[spec] theorem reads_value (noIn : Bool) : Reads source (g.value noIn) := by
  mvcgen [Grammar.value]

@[spec] theorem reads_expressions (noIn : Bool) : Reads source (g.expressions noIn) := by
  mvcgen [Grammar.expressions]
  all_goals simp_all

@[spec] theorem reads_propertyName : Reads source (propertyName g) := by
  mvcgen [propertyName]
  all_goals simp_all

@[spec] theorem reads_arrayItem : Reads source (arrayItem g) := by
  mvcgen [arrayItem]
  all_goals simp_all

@[spec] theorem reads_arrayLiteral : Reads source (arrayLiteral g) := by
  mvcgen [arrayLiteral]
  all_goals simp_all [collectionTerm]

@[spec] theorem reads_block : Reads source (block g) := by
  mvcgen [block]
  all_goals simp_all [or_imp]

@[spec] theorem reads_parameter {p : Scan ConcreteTree} (hp : Reads source p) :
    Reads source (parameter g p) := by
  mvcgen [parameter, hp]
  all_goals simp_all

@[spec] theorem reads_parametersWith {p : Scan ConcreteTree} (hp : Reads source p) :
    Reads source (parametersWith g p) := by
  mvcgen [parametersWith, hp]
  all_goals simp_all

@[spec] theorem reads_objectMember {p : Scan ConcreteTree} (hp : Reads source p) :
    Reads source (objectMember g p) := by
  mvcgen [objectMember, hp]
  all_goals simp_all

@[spec] theorem reads_nestedPattern : Reads source (nestedPattern g) := by
  mvcgen [nestedPattern]
  all_goals simp_all [sound_asPattern]

@[spec] theorem reads_objectLiteral : Reads source (objectLiteral g) := by
  mvcgen [objectLiteral]
  all_goals simp_all [collectionTerm]

@[spec] theorem reads_pattern : Reads source (pattern g) := by
  mvcgen [pattern]
  all_goals simp_all

@[spec] theorem reads_parameters : Reads source (parameters g) := by
  mvcgen [parameters]
  all_goals simp_all

@[spec] theorem reads_functionRest : Reads source (functionRest g) := by
  mvcgen [functionRest]
  all_goals simp_all

@[spec] theorem reads_functionExpression : Reads source (functionExpression g) := by
  mvcgen [functionExpression]
  all_goals simp_all
  split <;> simp

@[spec] theorem reads_decorators : Reads source (decorators g) := by
  mvcgen [decorators]
  all_goals simp_all

@[spec] theorem reads_classMember : Reads source (classMember g) := by
  mvcgen [classMember]
  all_goals simp_all

@[spec] theorem reads_classRest : Reads source (classRest g) := by
  mvcgen -trivial [classRest]
  all_goals try assumption
  all_goals simp_all

@[spec] theorem reads_classExpression : Reads source (classExpression g) := by
  mvcgen [classExpression]
  all_goals simp_all

@[spec] theorem reads_template : Reads source (template g) := by
  mvcgen [template]
  all_goals simp_all

@[spec] theorem reads_groupItems : Reads source (groupItems g) := by
  mvcgen [groupItems]
  all_goals simp_all [or_imp, forall_and]

@[spec] theorem reads_arguments : Reads source (arguments g) := by
  mvcgen [arguments]
  all_goals simp_all

@[spec] theorem reads_arrowRest (noIn : Bool) (start : Cursor) :
    Reads source (arrowRest g noIn start) := by
  mvcgen [arrowRest]
  all_goals simp_all

@[spec] theorem reads_parenthesized (noIn : Bool) : Reads source (parenthesized g noIn) := by
  mvcgen [parenthesized]
  all_goals simp_all +zetaDelta
  split
  · rename_i dots t _
    cases dots <;> simp_all
  · simp

@[spec] theorem reads_asyncTerm (noIn : Bool) : Reads source (asyncTerm g noIn) := by
  mvcgen [asyncTerm]
  all_goals simp_all +zetaDelta [sound_getD]

/-- The node of a name is made anew, from where the name begins to where it ends. -/
@[spec] theorem reads_nameTerm (noIn : Bool) : Reads source (nameTerm g noIn) := by
  refine triple_iff.mpr fun c t c' hc h => ?_
  have hname := identifier_spec c.skipTrivia
  rw [Cursor.skipTrivia_idem] at hname
  have hterm : ⦃fun s => ⌜s = c⌝⦄ nameTerm g noIn ⦃⇓? t s => ⌜Place source s ∧
      Sound source t.tree⌝⦄ := by
    mvcgen [nameTerm, hname, -reads_identifier]
    case vc1.pre hs => rw [hs]
    case vc3.post.success.isTrue.pre hs _ =>
      obtain ⟨n, rfl, -⟩ := hs
      simp [hc]
    case vc4.post.success.isFalse hs _ _ hname _ kind =>
      have hkind : kind = "undefined" ∨ kind = "identifier" := ite_eq_or_eq _ _ _
      obtain ⟨n, rfl, hline, hchildren⟩ := hname
      subst hs
      rw [hchildren]
      refine ⟨by simp [hc], sound_token hc.skipTrivia hline fun hstring => ?_⟩
      rw [hstring] at hkind
      simp at hkind
  exact triple_iff.mp hterm c t c' rfl h

@[spec] theorem reads_wordTerm (noIn : Bool) : Reads source (wordTerm g noIn) := by
  mvcgen [wordTerm]
  all_goals simp_all

@[spec] theorem reads_primary (noIn : Bool) : Reads source (primary g noIn) := by
  mvcgen [primary]
  all_goals simp_all

@[spec] theorem reads_memberStep (start : Cursor) : Reads source (memberStep g start) := by
  mvcgen [memberStep]
  all_goals simp_all

@[spec] theorem reads_callStep (start : Cursor) : Reads source (callStep g start) := by
  mvcgen [callStep]
  all_goals simp_all

@[spec] theorem reads_chain (calls : Bool) (start : Cursor) {t : Term} (ht : Sound source t.tree) :
    Reads source (chain g calls start t) := by
  mvcgen [chain]
  all_goals simp_all

@[spec] theorem reads_newTerm : Reads source (newTerm g) := by
  mvcgen [newTerm]
  all_goals simp_all

@[spec] theorem reads_constructorTerm : Reads source (constructorTerm g) := by
  mvcgen [constructorTerm]
  all_goals simp_all

@[spec] theorem reads_fullTerm (noIn : Bool) : Reads source (fullTerm g noIn) := by
  mvcgen -trivial [fullTerm]
  all_goals try assumption
  all_goals simp_all [sound_asPattern]

@[spec] theorem reads_operated (noIn : Bool) {kind : String} (h : kind ∉ tokenKinds)
    {operator : Scan Unit} (ho : Reads source operator) :
    Reads source (operated g noIn kind operator) := by
  mvcgen [operated, ho]
  all_goals simp_all

@[spec] theorem reads_yieldTerm (noIn : Bool) : Reads source (yieldTerm g noIn) := by
  mvcgen [yieldTerm]
  all_goals simp_all

@[spec] theorem reads_operand (noIn : Bool) : Reads source (operand g noIn) := by
  mvcgen [operand]
  all_goals simp_all

@[spec] theorem reads_binary (noIn : Bool) (level : Nat) : Reads source (binary g noIn level) := by
  mvcgen [binary]
  all_goals simp_all

@[spec] theorem reads_expression (noIn : Bool) : Reads source (expression g noIn) := by
  mvcgen [expression]
  all_goals simp_all

@[spec] theorem reads_markupExpression : Reads source (markupExpression g) := by
  mvcgen [markupExpression]
  all_goals simp_all

@[spec] theorem reads_markupAttribute : Reads source (markupAttribute g) := by
  mvcgen [markupAttribute]
  all_goals simp_all

@[spec] theorem reads_openingTag : Reads source (openingTag g) := by
  mvcgen [openingTag]
  all_goals simp_all +zetaDelta

@[spec] theorem reads_markupContent : Reads source (markupContent g) := by
  mvcgen [markupContent]
  all_goals simp_all +zetaDelta

@[spec] theorem reads_element : Reads source (element g) := by
  mvcgen [element]
  all_goals simp_all

end Sil.SourceText
