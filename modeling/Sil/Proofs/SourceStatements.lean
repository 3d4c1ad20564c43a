import Mathlib
import Sil.SourceText.Parse
import Sil.Proofs.SourceExpressions

/-!
Statements are read if the parts that nest in them are. From that, by the depth to which a source
nests, all tokens of a source that can be read span texts that they can have (`sound_of_read?`).
-/
set_option mvcgen.warning false

namespace Sil.SourceText
open Std.Do Scan

-- With these unfolded, the rest of a parser would be run at every step of it.
attribute [local irreducible] StateT.bind Cursor.nextWord punctuatorAt

variable {source : ByteArray} {g : Grammar}

@[spec] theorem reads_declaresAhead (inHeader : Bool) : Reads source (declaresAhead inHeader) := by
  mvcgen [declaresAhead]
  all_goals simp_all

@[spec] theorem reads_emptyStatement : Reads source emptyStatement := by
  mvcgen [emptyStatement]
  all_goals simp_all

@[spec] theorem reads_jumpStatement {kind : String} (h : kind ∉ tokenKinds) (keyword : String) :
    Reads source (jumpStatement kind keyword) := by
  mvcgen [jumpStatement]
  all_goals simp_all

@[spec] theorem reads_debuggerStatement : Reads source debuggerStatement := by
  mvcgen [debuggerStatement]
  all_goals simp_all

@[spec] theorem reads_functionNamedAhead : Reads source functionNamedAhead := by
  mvcgen [functionNamedAhead]
  all_goals simp_all

@[spec] theorem reads_classNamedAhead : Reads source classNamedAhead := by
  mvcgen [classNamedAhead]

@[spec] theorem reads_moduleName : Reads source moduleName := by
  mvcgen [moduleName]
  all_goals simp_all +zetaDelta

@[spec] theorem reads_moduleNames : Reads source (moduleNames g) := by
  mvcgen [moduleNames]
  all_goals simp_all

@[spec] theorem reads_importClause : Reads source (importClause g) := by
  mvcgen [importClause]
  all_goals simp_all +zetaDelta

@[spec] theorem reads_exportableAhead : Reads source exportableAhead := by
  mvcgen [exportableAhead]

@[spec] theorem reads_markupComment : Reads source markupComment := by
  mvcgen [markupComment]
  all_goals simp_all

@[spec] theorem reads_wordsAhead : Reads source wordsAhead := by
  mvcgen [wordsAhead]
  all_goals simp_all

@[spec] theorem reads_hashBangLine : Reads source hashBangLine := by
  mvcgen [hashBangLine]
  all_goals simp_all

section

variable (hg : g.Reads source)
include hg

@[spec] theorem reads_condition : Reads source (condition g) := by
  mvcgen [condition]
  all_goals simp_all

@[spec] theorem reads_declarator (noIn : Bool) : Reads source (declarator g noIn) := by
  mvcgen [declarator]
  all_goals simp_all +zetaDelta

@[spec] theorem reads_declarators (noIn : Bool) : Reads source (declarators g noIn) := by
  mvcgen [declarators]
  all_goals simp_all [or_imp]

@[spec] theorem reads_declarationUntil (keyword : String) (noIn : Bool)
    {stop : Bool → Scan (List ConcreteTree)} (hstop : ∀ b, Reads source (stop b)) :
    Reads source (declarationUntil g keyword noIn stop) := by
  mvcgen [declarationUntil, hstop]
  all_goals simp_all +zetaDelta
  split <;> simp_all [or_imp]

@[spec] theorem reads_declaration (keyword : String) : Reads source (declaration g keyword) := by
  mvcgen [declaration]
  all_goals simp_all

@[spec] theorem reads_ifStatement : Reads source (ifStatement g) := by
  mvcgen [ifStatement]
  all_goals simp_all +zetaDelta

@[spec] theorem reads_whileStatement : Reads source (whileStatement g) := by
  mvcgen [whileStatement]
  all_goals simp_all +zetaDelta

@[spec] theorem reads_doStatement : Reads source (doStatement g) := by
  mvcgen [doStatement]
  all_goals simp_all

@[spec] theorem reads_collectionHeader : Reads source (collectionHeader g) := by
  mvcgen [collectionHeader]
  all_goals simp_all

@[spec] theorem reads_loopClause (field : String) (noIn : Bool) :
    Reads source (loopClause g field noIn) := by
  mvcgen [loopClause]
  all_goals simp_all

@[spec] theorem reads_loopInitializer : Reads source (loopInitializer g) := by
  mvcgen [loopInitializer]
  all_goals simp_all

@[spec] theorem reads_forStatement : Reads source (forStatement g) := by
  mvcgen [forStatement]
  all_goals simp_all +zetaDelta [or_imp]

@[spec] theorem reads_returnStatement : Reads source (returnStatement g) := by
  mvcgen [returnStatement]
  all_goals simp_all +zetaDelta [or_imp]

@[spec] theorem reads_throwStatement : Reads source (throwStatement g) := by
  mvcgen [throwStatement]
  all_goals simp_all

@[spec] theorem reads_tryStatement : Reads source (tryStatement g) := by
  mvcgen [tryStatement]
  all_goals simp_all

@[spec] theorem reads_switchCase : Reads source (switchCase g) := by
  mvcgen [switchCase]
  all_goals simp_all

@[spec] theorem reads_switchStatement : Reads source (switchStatement g) := by
  mvcgen [switchStatement]
  all_goals simp_all

@[spec] theorem reads_withStatement : Reads source (withStatement g) := by
  mvcgen [withStatement]
  all_goals simp_all

@[spec] theorem reads_functionDeclaration : Reads source (functionDeclaration g) := by
  mvcgen [functionDeclaration]
  all_goals simp_all

@[spec] theorem reads_classDeclaration (start : Cursor) :
    Reads source (classDeclaration g start) := by
  mvcgen [classDeclaration]
  all_goals simp_all

@[spec] theorem reads_usingDeclaration : Reads source (usingDeclaration g) := by
  mvcgen [usingDeclaration]
  all_goals simp_all

@[spec] theorem reads_moduleSource : Reads source (moduleSource g) := by
  mvcgen [moduleSource]
  all_goals simp_all

@[spec] theorem reads_importStatement : Reads source (importStatement g) := by
  mvcgen [importStatement]
  all_goals simp_all +zetaDelta

@[spec] theorem reads_exportable : Reads source (exportable g) := by
  mvcgen [exportable]
  all_goals simp_all

@[spec] theorem reads_exportStatement (start : Cursor) :
    Reads source (exportStatement g start) := by
  mvcgen [exportStatement]
  all_goals simp_all

@[spec] theorem reads_expressionStatement : Reads source (expressionStatement g) := by
  mvcgen [expressionStatement]
  all_goals simp_all

@[spec] theorem reads_labeledStatement : Reads source (labeledStatement g) := by
  mvcgen [labeledStatement]
  all_goals simp_all

@[spec] theorem reads_decorated : Reads source (decorated g) := by
  mvcgen [decorated]
  all_goals simp_all

@[spec] theorem reads_statement : Reads source (statement g) := by
  mvcgen [statement]
  all_goals simp_all

@[spec] theorem reads_program : Reads source (program g) := by
  mvcgen [program]
  all_goals simp_all +zetaDelta [or_imp]

/-- One more level of nesting is read if the levels below are. -/
theorem Grammar.Reads.nested : g.nested.Reads source where
  expression := reads_expression hg
  binary := reads_binary hg
  operand := reads_operand hg
  constructor := reads_constructorTerm hg
  statement := reads_statement hg
  element := reads_element hg

theorem Grammar.Reads.deepen (depth : Nat) : (g.deepen depth).Reads source := by
  induction depth generalizing g with
  | zero => exact hg
  | succ depth ih => exact ih hg.nested

end

theorem Grammar.reads_empty (size : Nat) : (Grammar.empty size).Reads source where
  expression _ := fail_spec
  binary _ _ := fail_spec
  operand _ := fail_spec
  constructor := fail_spec
  statement := fail_spec
  element := fail_spec

theorem place_start (cs : List Char) : Place cs.utf8Encode { rest := cs } := ⟨[], by simp, by simp⟩

/-- The tokens of a source that can be read span texts that they can have. -/
theorem sound_of_read? {cs : List Char} {root : ConcreteTree} (h : read? cs = some root) :
    Sound cs.utf8Encode root := by
  obtain ⟨⟨t, c⟩, hprogram, ht⟩ := Option.map_eq_some_iff.mp h
  cases ht
  have hdeep : (Grammar.deepen _ (Grammar.empty _)).Reads cs.utf8Encode :=
    (Grammar.reads_empty (cs.length + 2)).deepen (cs.length + 2)
  exact (triple_iff.mp (reads_program hdeep) _ _ _ (place_start cs) hprogram).2

end Sil.SourceText
