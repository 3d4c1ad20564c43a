import Mathlib
import Sil.Proofs.DeclaredPositions
import Sil.Proofs.InferredTypes

/-!
Which names are hoisted. A stream mentions a name where it declares, reads or writes it. The typed
text declares a name at the top exactly if the first mention of it is a use, and in the order of
these first uses. A name that is read first is an integer, a name that is written first has the type
of the value that is assigned to it. `Tracks` ties an emission to the mentions so far, one mention
at a time.
-/
namespace Sil

inductive MentionKind where
  | declares
  | reads
  | writes
  deriving DecidableEq

structure Mention where
  position : Nat
  kind : MentionKind
  name : Name

namespace Mention

def isUse (m : Mention) : Bool := m.kind ≠ .declares

def firstUses (ms : List Mention) : List Mention :=
  (ms.zipIdx.filter fun p => p.1.isUse && !p.1.name.isIn ((ms.take p.2).map name)).map Prod.fst

theorem firstUses_append (ms : List Mention) (m : Mention) :
    firstUses (ms ++ [m]) = firstUses ms ++ if m.isUse &&
      !m.name.isIn (ms.map name) then [m] else [] := by
  have hbefore :
      (ms.zipIdx.filter fun p => p.1.isUse && !p.1.name.isIn (((ms ++ [m]).take p.2).map name)) =
      ms.zipIdx.filter fun p => p.1.isUse && !p.1.name.isIn ((ms.take p.2).map name) := by
    refine List.filter_congr fun p hp => ?_
    have hlt : p.2 < ms.length := by simpa using List.snd_lt_of_mem_zipIdx hp
    rw [List.take_append_of_le_length hlt.le]
  rw [firstUses, List.zipIdx_append, List.filter_append, hbefore, List.map_append]
  congr 1
  simp [List.filter_cons]
  split <;> rfl

/-- A first use of a name is the first mention of it. -/
theorem isIn_firstUses (ms : List Mention) (n : Name) :
    n.isIn ((firstUses ms).map name) ↔ ∃ m, ms.find? (·.name.same n) = some m ∧ m.isUse := by
  induction ms using List.reverseRecOn with
  | nil => simp [firstUses, Name.isIn]
  | append_singleton ms m ih =>
    have hadded : n.isIn ((firstUses (ms ++ [m])).map name) ↔ n.isIn ((firstUses ms).map name) ∨
        (m.isUse ∧ m.name.isIn (ms.map name) = false ∧ m.name.same n) := by
      rw [firstUses_append, List.map_append]
      cases m.isUse <;> cases m.name.isIn (ms.map name) <;> simp [Name.isIn]
    rw [hadded, ih, List.find?_append]
    cases hfound : ms.find? (·.name.same n) with
    | some first =>
      -- The name is mentioned already, so the new mention is no first one.
      have hsame : first.name.same n := by simpa using List.find?_some hfound
      have hold (h : m.name.same n) : m.name.isIn (ms.map name) := Name.isIn_iff.mpr
        ⟨_, List.mem_map_of_mem (List.mem_of_find?_eq_some hfound),
        Name.same_trans hsame (Name.same_symm h)⟩
      simp only [Option.some_or, Option.some.injEq, exists_eq_left', or_iff_left_iff_imp]
      rintro ⟨-, hnew, h⟩
      cases hnew.symm.trans (hold h)
    | none =>
      have hnew (h : m.name.same n) : m.name.isIn (ms.map name) = false := by
        rw [← Bool.not_eq_true, Name.isIn_iff]
        rintro ⟨k, hk, hsame⟩
        obtain ⟨first, hfirst, rfl⟩ := List.mem_map.mp hk
        exact List.find?_eq_none.mp hfound first hfirst (Name.same_trans hsame h)
      cases hm : m.name.same n with
      | false => simp [hm]
      | true => simp [hm, hnew hm]

/-- No name has two first uses. -/
theorem pairwise_firstUses (ms : List Mention) :
    ((firstUses ms).map name).Pairwise fun m n => m.same n = false := by
  induction ms using List.reverseRecOn with
  | nil => simp [firstUses]
  | append_singleton ms m ih =>
    rw [firstUses_append]
    split
    · rename_i hfirst
      rw [List.map_append, List.pairwise_append]
      refine ⟨ih, List.pairwise_singleton _ _, fun n hn k hk => ?_⟩
      obtain ⟨rfl⟩ : k = m.name := by simpa using hk
      obtain ⟨u, hu, rfl⟩ := List.mem_map.mp hn
      have hmem : u ∈ ms := by
        obtain ⟨p, hp, rfl⟩ := List.mem_map.mp hu
        exact List.fst_mem_of_mem_zipIdx (List.mem_filter.mp hp).1
      by_contra hsame
      have hold : m.name.isIn (ms.map name) :=
        Name.isIn_iff.mpr ⟨_, List.mem_map_of_mem hmem, by simpa using hsame⟩
      simp [hold] at hfirst
    · simpa using ih

end Mention

open Mention

/-- The names that an instruction mentions, in the order in which they are noted: what it reads
comes before what it writes. Emission ignores the fields that an operation does not have, such as
the operands of a declaration, so names in these are no mentions. -/
def Instruction.mentions (i : Instruction) (position : Nat) : List Mention :=
  let reads := (i.operands.filterMap Operand.name?).map fun n => ⟨position, .reads, n⟩
  match i.opcode with
  | .decl | .param => [⟨position, .declares, Name.ofOption i.name⟩]
  | .mov | .binary _ => reads ++ [⟨position, .writes, Name.ofOption i.dest⟩]
  | .cmp | .ret => reads
  | _ => []

def mentions (is : List Instruction) : List Mention := is.zipIdx.flatMap fun p => p.1.mentions p.2

theorem mentions_take_succ {is : List Instruction} {k : Nat} {i : Instruction}
    (hi : is[k]? = some i) :
    mentions (is.take (k + 1)) = mentions (is.take k) ++ i.mentions k := by
  have hk : k < is.length := (List.getElem?_eq_some_iff.mp hi).1
  rw [List.take_add_one, hi, Option.toList_some, mentions, List.zipIdx_append, List.flatMap_append]
  simp [mentions, hk.le]

namespace Emission
open EmissionState

variable {is : List Instruction} {ms : List Mention} {s s' t : EmissionState} {i : Instruction}
  {k : Nat} {upcoming : Option Instruction}

/-- How a hoisted name with its type comes from the first use of the name: a name that is read is an
integer, and a name that is written has the type of the result of the instruction that writes it, in
the state in which the emission comes to this instruction. -/
structure HoistedBy (is : List Instruction) (d : Name × ValueType) (m : Mention) : Prop where
  name : d.1 = m.name
  read : m.kind = .reads → d.2 = .int
  written : m.kind = .writes → ∃ i t, is[m.position]? = some i ∧
    after .cpp (initial .cpp) is m.position = .ok t ∧ d.2 = resultType .cpp t i

/-- An emission knows the names that are mentioned, and has hoisted those that were used first. -/
structure Tracks (is : List Instruction) (ms : List Mention) (s : EmissionState) : Prop where
  known : ∀ n : Name, s.knows n ↔ n.isIn (ms.map Mention.name)
  hoisted : List.Forall₂ (HoistedBy is) s.hoisted (firstUses ms)

namespace Tracks

theorem congr (h : Tracks is ms s) (hhoisted : t.hoisted = s.hoisted)
    (hdeclared : t.declared = s.declared) :
    Tracks is ms t where
  known n := by
    rw [knows, hhoisted, hdeclared]
    exact h.known n
  hoisted := by
    rw [hhoisted]
    exact h.hoisted

theorem declare (h : Tracks is ms s) (n : Name) (hhoisted : t.hoisted = s.hoisted)
    (hdeclared : t.declared = n.addTo s.declared) : Tracks is (ms ++ [⟨k, .declares, n⟩]) t where
  known m := by
    have hm := h.known m
    rw [knows, Bool.or_eq_true] at hm ⊢
    rw [hhoisted, hdeclared, Name.isIn_addTo, List.map_append, List.map_singleton,
      Name.isIn_append_singleton, ← hm]
    tauto
  hoisted := by
    rw [hhoisted, firstUses_append]
    simpa [isUse] using h.hoisted

/-- The use of a name hoists it if it is the first mention of the name. -/
theorem use (h : Tracks is ms s) {m : Mention} {type : ValueType} (hm : m.isUse)
    (hby : HoistedBy is (m.name, type) m) : Tracks is (ms ++ [m]) (s.noteUse .cpp m.name type) := by
  unfold noteUse
  split
  · rename_i hknown
    have hold : m.name.isIn (ms.map Mention.name) := (h.known _).mp hknown
    constructor
    · intro n
      rw [List.map_append, List.map_singleton, Name.isIn_append_singleton, h.known]
      refine ⟨.inl, fun hn => hn.elim id fun hsame => ?_⟩
      exact (h.known n).mp (knows_of_same (Name.same_symm hsame) hknown)
    · rw [firstUses_append, hold]
      simpa using h.hoisted
  · rename_i hunknown
    have hnew : m.name.isIn (ms.map Mention.name) = false := by
      rw [← Bool.not_eq_true, ← h.known]
      exact hunknown
    constructor
    · intro n
      have hn := h.known n
      rw [knows, Bool.or_eq_true] at hn ⊢
      show n.isIn s.declared ∨ (n.typeIn? (s.hoisted ++ [(m.name, type)])).isSome ↔ _
      rw [List.map_append, List.map_singleton, Name.isIn_append_singleton, ← hn,
        Name.typeIn?_append]
      cases m.name.same n <;> simp
    · show List.Forall₂ _ (s.hoisted ++ [(m.name, type)]) _
      rw [firstUses_append, hm, hnew]
      exact List.rel_append h.hoisted (.cons hby .nil)

end Tracks

theorem Tracks.reads (h : Tracks is ms s) (names : List Name) : Tracks is
    (ms ++ names.map fun n => ⟨k, .reads, n⟩)
    (names.foldl (fun s n => s.noteUse .cpp n .int) s) := by
  induction names generalizing ms s with
  | nil => simpa using h
  | cons n names ih =>
    have hn : Tracks is (ms ++ [⟨k, .reads, n⟩]) (s.noteUse .cpp n .int) :=
      h.use rfl ⟨rfl, fun _ => rfl, by simp⟩
    rw [List.map_cons, List.foldl_cons, List.append_cons]
    exact ih hn

theorem Tracks.noteReads (h : Tracks is ms s) {operands : List Operand}
    (hreads : noteReads .cpp s operands = .ok t) :
    Tracks is (ms ++ (operands.filterMap Operand.name?).map fun n => ⟨k, .reads, n⟩) t := by
  rw [noteReads_eq hreads]
  exact h.reads _

/-- A name that is hoisted as an integer has the type that it had without. -/
theorem operandType_noteUse (s : EmissionState) (n : Name) :
    operandType (s.noteUse .cpp n .int) = operandType s := by
  have htypes (m : Name) :
      (m.typeIn? (s.noteUse .cpp n .int).types).getD .int = (m.typeIn? s.types).getD .int := by
    unfold noteUse
    split
    · rfl
    · show (m.typeIn?
        (if (n.typeIn? s.types).isSome then s.types else s.types ++ [(n, .int)])).getD .int = _
      split
      · rfl
      · rw [Name.typeIn?_append]
        cases m.typeIn? s.types <;> cases n.same m <;> rfl
  funext o
  cases o with
  | const => rfl
  | var m | temp m => exact htypes m

theorem operandType_noteReads {operands : List Operand} (h : noteReads .cpp s operands = .ok t) :
    operandType t = operandType s := by
  rw [noteReads_eq h]
  clear h
  generalize operands.filterMap Operand.name? = names
  induction names generalizing s with
  | nil => rfl
  | cons n names ih => exact ih.trans (operandType_noteUse s n)

theorem Enters.operandType_eq (h : Enters s s') : operandType s' = operandType s := by
  cases h <;> rfl

/-- One instruction, in the state in which the emission performs it: it has the types of the state
in which the emission came to the instruction. -/
theorem Performs.tracks (h : Performs .cpp upcoming t i s') (hi : is[k]? = some i)
    (hs : after .cpp (initial .cpp) is k = .ok s) (htypes : operandType t = operandType s)
    (ht : Tracks is ms t) : Tracks is (ms ++ i.mentions k) s' := by
  -- An assignment reads its operands and then writes its name.
  have hassign {u : EmissionState} (hreads : noteReads .cpp t i.operands = .ok u) :
      Tracks is (ms ++ ((i.operands.filterMap Operand.name?).map (fun n => ⟨k, .reads, n⟩) ++
        [⟨k, .writes, Name.ofOption i.dest⟩]))
        (u.noteUse .cpp (Name.ofOption i.dest) (resultType .cpp u i)) := by
    have hresult : resultType .cpp u i = resultType .cpp s i := by
      rw [resultType_eq, resultType_eq, operandType_noteReads hreads, htypes]
    rw [← List.append_assoc]
    exact (ht.noteReads hreads).use rfl ⟨rfl, by simp, fun _ => ⟨i, s, hi, hs, hresult⟩⟩
  have hnothing {u : EmissionState} (hhoisted : u.hoisted = t.hoisted)
      (hdeclared : u.declared = t.declared)
      (hnone : i.mentions k = []) : Tracks is (ms ++ i.mentions k) u := by
    rw [hnone, List.append_nil]
    exact ht.congr hhoisted hdeclared
  cases h with
  | declareUntyped hb => cases hb
  | declareTyped _ ho | declareAgain _ ho | param ho =>
    simp only [Instruction.mentions, ho]
    exact ht.declare _ rfl rfl
  | mov ho _ hreads | binary ho _ hreads =>
    simp only [Instruction.mentions, ho]
    exact (hassign hreads).congr rfl rfl
  | cmp ho _ hreads | ret ho hreads =>
    simp only [Instruction.mentions, ho]
    exact (ht.noteReads hreads).congr rfl rfl
  | branch ho =>
    refine hnothing rfl rfl ?_
    cases hop : i.opcode <;> simp_all [Instruction.mentions, Opcode.isConditionalJump]
  | jump ho | label ho | func ho => exact hnothing rfl rfl (by simp [Instruction.mentions, ho])
  | jumpClosing ho | labelClosing ho | endFunc ho =>
    obtain ⟨-, hhoisted, hdeclared⟩ := types_closeBlock .cpp _
    exact hnothing hhoisted hdeclared (by simp [Instruction.mentions, ho])

theorem tracks_step (h : step .cpp upcoming s i = .ok s') (hi : is[k]? = some i)
    (hs : after .cpp (initial .cpp) is k = .ok s) (htracks : Tracks is ms s) :
    Tracks is (ms ++ i.mentions k) s' := by
  obtain ⟨t, u, henter, -, hperforms, rfl⟩ := step_cases h
  obtain ⟨htypes, ht⟩ : operandType t = operandType s ∧ Tracks is ms t := by
    rcases henter with ⟨-, rfl⟩ | ⟨-, henters⟩
    · exact ⟨rfl, htracks⟩
    · refine ⟨henters.operandType_eq, ?_⟩
      cases henters <;> exact htracks.congr rfl rfl
  exact (hperforms.tracks hi hs htypes ht).congr rfl rfl

/-- An emission tracks the mentions of the instructions that it has performed. -/
theorem tracks_after (hk : k ≤ is.length) (h : after .cpp (initial .cpp) is k = .ok s) :
    Tracks is (mentions (is.take k)) s := by
  have hinitial : Tracks is [] (initial .cpp) := ⟨fun n => by rfl, .nil⟩
  -- The state before an instruction is a part of the claim about it, so it is carried along.
  have hcarried := after_invariant (b := .cpp) (s := initial .cpp)
    (P := fun k t => after .cpp (initial .cpp) is k = .ok t ∧ Tracks is (mentions (is.take k)) t)
    ⟨after_zero, hinitial⟩ ?_ hk h
  · exact hcarried.2
  · rintro k i t t' hi ⟨ht, htracks⟩ hstep
    rw [after_succ hi, ht, mentions_take_succ hi]
    exact ⟨hstep, tracks_step hstep hi ht htracks⟩

/-- The hoisted names are the names of the first uses. -/
theorem hoisted_names {decls : List (Name × ValueType)} {uses : List Mention}
    (h : List.Forall₂ (HoistedBy is) decls uses) : decls.map Prod.fst = uses.map Mention.name := by
  induction h with
  | nil => rfl
  | cons hby _ ih => rw [List.map_cons, List.map_cons, hby.name, ih]

end Emission

open Emission EmissionState

/-- The declarations at the top of the typed text are those of the names that are mentioned first by
a use, each once, in the order of these uses and with the type that the first use gives. -/
theorem typed_text_hoists_first_uses {is : List Instruction} {s : EmissionState}
    (h : emit .cpp is = .ok s) (indent : String) :
    ∃ decls : List (Name × ValueType),
      Backend.prologue .cpp indent s =
        ["#include <iostream>", "#include <string>", "using namespace std;", "",
            "int main() \x7b"] ++
          decls.map (fun d => Line.indentation indent 1 ++ d.2.text ++ " " ++ d.1.shown ++ ";") ∧
      List.Forall₂ (HoistedBy is) decls (firstUses (mentions is)) ∧
      (decls.map Prod.fst).Pairwise (fun m n => m.same n = false) ∧
      ∀ n : Name, n.isIn (decls.map Prod.fst) ↔
        ∃ m, (mentions is).find? (·.name.same n) = some m ∧ m.isUse := by
  obtain ⟨hafter, -⟩ := after_length_of_emit h
  have htracks := tracks_after le_rfl hafter
  rw [List.take_length] at htracks
  refine ⟨s.hoisted, rfl, htracks.hoisted, ?_⟩
  rw [hoisted_names htracks.hoisted]
  exact ⟨pairwise_firstUses _, isIn_firstUses _⟩

/-- A function with a parameter, a name that is written first, one that is read first, one that is
declared first, and a parameter that is used again outside. -/
def mixedMentions : List Instruction :=
  [.func "f" .unknown, .param "p" .unknown, .binary .lt "q" (.var "p") (.var "r") .unknown,
   .endFunc .unknown, .decl "d" .unknown, .mov "w" (.var "d") .unknown,
   .mov "p" (.var "w") .unknown, .cmp (.var "r") .unknown, .jumpIfFalse "L0" .unknown,
   .mov "b" (.const (.bool true) "true") .unknown, .decl "w" .unknown, .mark "L0"]

theorem mixedMentions_hoists_first_uses :
    ∃ s decls, emit .cpp mixedMentions = .ok s ∧
      Backend.prologue .cpp "  " s =
        ["#include <iostream>", "#include <string>", "using namespace std;", "", "int main() \x7b",
          "  int r;", "  bool q;", "  int w;", "  bool b;"] ∧
      List.Forall₂ (HoistedBy mixedMentions) decls (firstUses (mentions mixedMentions)) ∧
      decls.map Prod.fst = ["r", "q", "w", "b"] ∧ (Name.text "w").isIn (decls.map Prod.fst) ∧
      ¬ (Name.text "p").isIn (decls.map Prod.fst) := by
  have hemit : ∃ s, emit .cpp mixedMentions = .ok s ∧ Backend.prologue .cpp "  " s =
      ["#include <iostream>", "#include <string>", "using namespace std;", "", "int main() \x7b",
        "  int r;", "  bool q;", "  int w;", "  bool b;"] := ⟨_, rfl, rfl⟩
  obtain ⟨s, hs, htext⟩ := hemit
  obtain ⟨decls, -, hdecls, -, hnames⟩ := typed_text_hoists_first_uses hs "  "
  refine ⟨s, decls, hs, htext, hdecls, ?_, (hnames _).mpr ⟨⟨5, .writes, "w"⟩, rfl, rfl⟩, ?_⟩
  · rw [hoisted_names hdecls]
    rfl
  · rw [hnames]
    rintro ⟨m, hm, huse⟩
    obtain rfl : m = ⟨1, .declares, "p"⟩ := (Option.some.inj hm).symm
    cases huse

end Sil
