import Mathlib
import Sil.Compile
import Sil.Proofs.SourceSpelling

/-!
SIL text and its lines. The text of a stream is one instruction a line as long as no instruction has
a line feed in its own text. In the code of a source, only a string that is continued over a line
end brings one in, so the lines are the instructions exactly when no such string is an operand.
-/
namespace Sil
open SourceText

def lines (text : String) : List String := (text.split '\n').toList.map String.Slice.copy

/-- No piece of a list that is split has the mark at which it is split. -/
private theorem not_mem_of_mem_splitOn {c : Char} {cs piece : List Char}
    (h : piece ∈ cs.splitOn c) :
    c ∉ piece := by
  induction cs generalizing piece with
  | nil => simp_all
  | cons d rest ih =>
    rw [List.splitOn_cons_eq_if_modifyHead] at h
    split at h
    · rcases List.mem_cons.mp h with rfl | h
      · simp
      · exact ih h
    · rename_i hd
      cases hpieces : rest.splitOn c with
      | nil => simp [hpieces] at h
      | cons first others =>
        rw [hpieces, List.modifyHead_cons] at h
        rcases List.mem_cons.mp h with rfl | h
        · have hne : c ≠ d := fun heq => hd (by simp [heq])
          simp [hne, ih (show first ∈ rest.splitOn c by simp [hpieces])]
        · exact ih (by simp [hpieces, h])

/-- Texts on lines of their own are the lines again if none of them has a line feed, and only
then. -/
theorem lines_intercalate_iff {texts : List String} (hsome : texts ≠ []) :
    lines ("\n".intercalate texts) = texts ↔ ∀ text ∈ texts, '\n' ∉ text.toList := by
  constructor
  · intro h text htext
    rw [← h, lines, String.toList_split_char] at htext
    obtain ⟨piece, hpiece, rfl⟩ := List.mem_map.mp htext
    rw [String.toList_ofList]
    exact not_mem_of_mem_splitOn hpiece
  · intro h
    have hsplit := String.toList_split_intercalate h
    rwa [if_neg hsome] at hsplit

namespace Instruction

theorem feed_not_mem_mnemonic (o : Opcode) : '\n' ∉ o.mnemonic.toList := by
  rw [Opcode.mnemonic, String.toList_map]
  cases o with
  | binary op => cases op <;> decide
  | _ => decide

theorem feed_mem_intercalate {texts : List String} :
    '\n' ∈ (", ".intercalate texts).toList ↔ ∃ text ∈ texts, '\n' ∈ text.toList := by
  induction texts with
  | nil => simp
  | cons text rest ih =>
    cases rest with
    | nil => simp
    | cons next rest =>
      rw [String.intercalate_cons_cons, String.toList_append, String.toList_append, List.mem_append,
        List.mem_append, ih]
      simp

/-- Only the operands of a written instruction can bring a line feed into its text. -/
theorem feed_mem_text {i : Instruction} (hi : i.Written) :
    '\n' ∈ i.text.toList ↔ ∃ o ∈ i.operands, '\n' ∈ o.text.toList := by
  obtain ⟨hnames, -, hmark⟩ := hi
  simp only [List.mem_append, or_imp, forall_and, Option.mem_toList] at hnames
  obtain ⟨⟨hname, hdest⟩, hlabel⟩ := hnames
  unfold text
  split
  · rename_i hopcode
    rw [hmark hopcode]
    cases h : i.label with
    | none => simp [Name.ofOption, Name.shown]
    | some l => simpa [Name.ofOption, Name.shown] using hlabel l h
  split
  · rename_i hempty
    have hoperands : i.operands = [] := by
      simp only [fieldTexts, List.isEmpty_iff, List.append_eq_nil_iff, List.map_eq_nil_iff]
        at hempty
      exact hempty.1.2
    simp [hoperands, feed_not_mem_mnemonic]
  · rw [String.toList_append, String.toList_append, List.mem_append, List.mem_append,
      feed_mem_intercalate]
    simp only [feed_not_mem_mnemonic, fieldTexts]
    grind

/-- The text of a written instruction has a line feed if one of its strings is continued, and only
then. -/
theorem feed_mem_text_iff {i : Instruction} (hi : i.Written) :
    '\n' ∈ i.text.toList ↔ ∃ s raw, .const (.str s) raw ∈ i.operands ∧ IsContinued raw.toList := by
  rw [feed_mem_text hi]
  constructor
  · rintro ⟨o, ho, hfeed⟩
    obtain ⟨s, raw, rfl, hcontinued⟩ := hi.2.1 o ho hfeed
    exact ⟨s, raw, ho, hcontinued⟩
  · rintro ⟨s, raw, ho, hcontinued⟩
    exact ⟨_, ho, hcontinued.feed_mem⟩

end Instruction

/-- A compilation lists the code of its tree. -/
theorem Node.sil_of_compile {tree : Node} {code : List Instruction} {settings : Settings}
    {names : Option (List Name)} {compiled : Compiled}
    (hcode : tree.lower settings.host.limits = .ok code)
    (h : tree.compile settings names = .ok compiled) : compiled.sil = Instruction.listing code := by
  obtain ⟨backends, -, h⟩ := bind_eq_ok.mp h
  rw [Node.compileTo, hcode, ok_bind] at h
  obtain ⟨outputs, -, h⟩ := bind_eq_ok.mp h
  cases h
  rfl

/-- The SIL text of a source has one line for each instruction exactly when no string among the
operands is continued over a line end. It is the SIL text of every compilation of the source. -/
theorem listing_lines_iff {host : Host} {source : Text} {code : List Instruction}
    (h : (do (← Node.ofText host source).lower host.limits) = .ok code) (hsome : code ≠ []) :
    (lines (Instruction.listing code) = code.map Instruction.text ↔
      ∀ i ∈ code, ∀ s raw, .const (.str s) raw ∈ i.operands → ¬ IsContinued raw.toList) ∧
    ∀ settings : Settings, settings.host = host → ∀ names compiled,
      (do (← Node.ofText host source).compile settings names) = .ok compiled →
        compiled.sil = Instruction.listing code := by
  obtain ⟨tree, htree, hcode⟩ := bind_eq_ok.mp h
  have hwritten := Lowering.written_of_lower hcode (Node.written_ofText htree)
  constructor
  · rw [Instruction.listing, lines_intercalate_iff (by simpa using hsome), List.forall_mem_map]
    refine forall₂_congr fun i hi => ?_
    rw [Instruction.feed_mem_text_iff (hwritten i hi)]
    simp
  · rintro settings rfl names compiled hcompiled
    rw [htree, ok_bind] at hcompiled
    exact Node.sil_of_compile hcode hcompiled

/-- A computation that succeeds with a result that passes a check. -/
theorem exists_ok_of_any {ε α : Type} {x : Except ε α} {p : α → Bool}
    (h : x.toOption.any p = true) :
    ∃ a, x = .ok a ∧ p a = true := by
  cases x with
  | error e => cases h
  | ok a => exact ⟨a, rfl, h⟩

/-- `x = 'a\n' + "b";` with its line feed as an escape. -/
def escapedFeed : Text := Text.ofString "x = 'a\\n' + \"b\";"

theorem escapedFeed_listing_lines : ∃ code compiled,
    (do (← Node.ofText {} escapedFeed).lower {}) = .ok code ∧ code ≠ [] ∧
    (do (← Node.ofText {} escapedFeed).compile {} none) = .ok compiled ∧
    (∀ i ∈ code, ∀ s raw, .const (.str s) raw ∈ i.operands → ¬ IsContinued raw.toList) ∧
    lines compiled.sil = ["add t0, 'a\\n', \"b\"", "mov x, t0"] := by
  have heval : (do (← Node.ofText {} escapedFeed).lower {} : Except Error _).toOption.any
      (fun code => code.map Instruction.text == ["add t0, 'a\\n', \"b\"", "mov x, t0"] &&
        code.all fun i => i.operands.all fun o => !o.text.toList.contains '\n') = true := by
    decide +kernel
  have hcompiles : (do (← Node.ofText {} escapedFeed).compile {} none : Except Error _).toOption.any
      (fun _ => true) = true := by
    decide +kernel
  obtain ⟨code, hcode, hcheck⟩ := exists_ok_of_any heval
  obtain ⟨compiled, hcompiled, -⟩ := exists_ok_of_any hcompiles
  obtain ⟨htexts, hplain⟩ := Bool.and_eq_true_iff.mp hcheck
  replace htexts := eq_of_beq htexts
  have hsome : code ≠ [] := by
    rintro rfl
    cases htexts
  have hline : ∀ i ∈ code, ∀ s raw, .const (.str s) raw ∈ i.operands →
      ¬ IsContinued raw.toList := by
    intro i hi s raw ho hcontinued
    have hfeed := List.all_eq_true.mp (List.all_eq_true.mp hplain i hi) _ ho
    simp [Operand.text, hcontinued.feed_mem] at hfeed
  obtain ⟨hlines, hsil⟩ := listing_lines_iff hcode hsome
  refine ⟨code, compiled, hcode, hsome, hcompiled, hline, ?_⟩
  rw [hsil {} rfl _ _ hcompiled, hlines.mpr hline, htexts]

/-- `x = "a\` and `b";`, a string over two lines. -/
def continuedString : Text := Text.ofString "x = \"a\\\nb\";"

/-- One instruction can have two lines. -/
theorem continuedString_listing_breaks :
    ∃ i, (do (← Node.ofText {} continuedString).lower {}) = .ok [i] ∧
    i.text = "mov x, \"a\\\nb\"" ∧ lines (Instruction.listing [i]) ≠ [i.text] := by
  have heval : (do (← Node.ofText {} continuedString).lower {} : Except Error _).toOption.any
      (fun code => code.map Instruction.text == ["mov x, \"a\\\nb\""]) = true := by
    decide +kernel
  obtain ⟨code, hcode, hcheck⟩ := exists_ok_of_any heval
  obtain ⟨i, rfl, htext⟩ := List.map_eq_singleton_iff.mp (eq_of_beq hcheck)
  refine ⟨i, hcode, htext, fun hlines => ?_⟩
  have hfeeds := (lines_intercalate_iff (List.cons_ne_nil i.text [])).mp hlines
  have hfeed := hfeeds i.text (List.mem_singleton_self _)
  rw [htext] at hfeed
  exact hfeed (by decide)

end Sil
