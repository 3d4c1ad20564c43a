import Mathlib
import Sil.Proofs.DeclarationsInForce
import Sil.Proofs.ScopedEmission

/-!
The types that the typed text infers. A hoisted name gets its type from the operands of the
instruction that first writes it, and the type of an operand is that on the line which declared its
name last, in whatever block: the types, unlike the scopes, are not restored when a block closes.
Main result: this is the type of the declaration in force while the block of that line is open, and
the one in force after that is the one around it.
-/
namespace Sil

namespace EmissionState
open Content

variable {s s' t : EmissionState} {m n : Name} {type : ValueType}

/-- What a typed emission records of the types: the type of a name is that on the last line that
declares it, and else that of the hoisted name. Every declaration line stands in a block. -/
structure TypesRecord (s : EmissionState) : Prop where
  recorded : ∀ n : Name, n.typeIn? s.types = (latest s.contents n).or (n.typeIn? s.hoisted)
  placed : ∀ k type n, s.contents[k]? = some (.declare type n) →
    scopesAfter (s.contents.take k) ≠ []

theorem ScopesAgree.scopesAfter_ne_nil (h : ScopesAgree s) : scopesAfter s.contents ≠ [] := by
  have hheight := h.height
  have hbase := h.base
  intro hnil
  rw [hnil, List.length_nil] at hheight
  omega

theorem types_closeBlock (b : Backend) (s : EmissionState) : (s.closeBlock b).types = s.types ∧
    (s.closeBlock b).hoisted = s.hoisted ∧ (s.closeBlock b).declared = s.declared := by
  unfold closeBlock
  split
  · exact ⟨rfl, rfl, rfl⟩
  · dsimp only
    split <;> split <;> exact ⟨rfl, rfl, rfl⟩

/-- Names that are the same are known alike. -/
theorem knows_of_same (h : m.same n) (hn : s.knows n) : s.knows m := by
  have hfound {names : List Name} (hn : n.isIn names) : m.isIn names := by
    obtain ⟨k, hk, hsame⟩ := Name.isIn_iff.mp hn
    exact Name.isIn_iff.mpr ⟨k, hk, Name.same_trans hsame (Name.same_symm h)⟩
  rw [knows, Bool.or_eq_true, Name.isSome_typeIn?] at hn ⊢
  exact hn.imp hfound hfound

namespace TypesRecord

theorem initial : TypesRecord (EmissionState.initial .cpp) where
  recorded n := rfl
  placed k type n hk := by cases hk

/-- Lines that declare nothing. -/
theorem extend (h : TypesRecord s) {more : List Content}
    (hcontents : t.contents = s.contents ++ more) (hmore : ∀ c ∈ more, c.isDeclaration = false)
    (htypes : t.types = s.types) (hhoisted : t.hoisted = s.hoisted) :
    TypesRecord t where
  recorded n := by rw [htypes, hhoisted, hcontents, latest_append_plain hmore, h.recorded]
  placed k type n hk := by
    rw [hcontents] at hk ⊢
    rcases Nat.lt_or_ge k s.contents.length with hlt | hge
    · rw [List.getElem?_append_left hlt] at hk
      rw [List.take_append_of_le_length hlt.le]
      exact h.placed k type n hk
    · rw [List.getElem?_append_right hge] at hk
      cases hmore _ (List.mem_of_getElem? hk)

theorem closeBlock (h : TypesRecord s) : TypesRecord (s.closeBlock .cpp) := by
  obtain ⟨htypes, hhoisted, -⟩ := types_closeBlock .cpp s
  cases hb : s.blocks with
  | nil => rwa [closeBlock_nil .cpp hb]
  | cons block rest =>
    exact h.extend (contents_closeBlock hb) (by simp [isDeclaration]) htypes hhoisted

/-- A name that is hoisted had no type before. -/
theorem noteUse (h : TypesRecord s) (hknown : DeclaresKnown s) (n : Name) (type : ValueType) :
    TypesRecord (s.noteUse .cpp n type) := by
  unfold EmissionState.noteUse
  split
  · exact h
  · rename_i hunknown
    rw [knows, Bool.or_eq_true, not_or] at hunknown
    obtain ⟨hdeclared, hhoisted⟩ := hunknown
    -- A line that declares the name would have made it known.
    have hlatest : latest s.contents n = none := by
      refine List.findSome?_eq_none_iff.mpr fun c hc => ?_
      by_contra hne
      obtain ⟨type, htype⟩ := Option.ne_none_iff_exists'.mp hne
      obtain ⟨m, rfl, hsame⟩ := typeFor_eq_some htype
      exact hdeclared (hknown.known type m (List.mem_reverse.mp hc) n hsame)
    have hnone : n.typeIn? s.types = none := by
      rw [h.recorded, hlatest, Option.none_or]
      simpa using hhoisted
    constructor
    · intro k
      show k.typeIn? (if (n.typeIn? s.types).isSome then s.types else s.types ++ [(n, type)]) =
        (latest s.contents k).or (k.typeIn? (s.hoisted ++ [(n, type)]))
      rw [hnone, if_neg (by simp), Name.typeIn?_append, Name.typeIn?_append, h.recorded,
        Option.or_assoc]
    · exact h.placed

theorem declare (h : TypesRecord s) (hplace : scopesAfter s.contents ≠ [])
    (hcontents : t.contents = s.contents ++ [.declare type n])
    (htypes : t.types = n.setTypeIn type s.types) (hhoisted : t.hoisted = s.hoisted) :
    TypesRecord t where
  recorded k := by
    rw [htypes, hhoisted, hcontents, Name.typeIn?_setTypeIn, latest_append, h.recorded, typeFor]
    split
    · rfl
    · rw [Option.none_or]
  placed := by
    rw [hcontents]
    intro k type' n' hk
    refine forall_line_append (P := fun before c => ∀ type n, c = .declare type n →
      scopesAfter before ≠ []) |>.mpr ⟨?_, fun _ _ _ => hplace⟩ k _ hk type' n' rfl
    rintro k c hk type n rfl
    exact h.placed k type n hk

end TypesRecord

theorem knows_noteUse (b : Backend) (s : EmissionState) (type : ValueType) (hn : n.same n) :
    (s.noteUse b n type).knows n := by
  unfold noteUse
  split
  · assumption
  · rw [knows, Bool.or_eq_true]
    right
    show (n.typeIn? (s.hoisted ++ [(n, type)])).isSome
    rw [Name.typeIn?_append, if_pos hn, Option.isSome_or, Option.isSome_some, Bool.or_true]

/-- From one state of an emission to a later one, lines are added, and only unknown names are
hoisted. -/
structure Grows (s s' : EmissionState) : Prop where
  contents : s.contents <+: s'.contents
  hoisted : ∃ more, s'.hoisted = s.hoisted ++ more ∧ ∀ d ∈ more, s.knows d.1 = false
  knows : ∀ n : Name, s.knows n → s'.knows n

namespace Grows

theorem of_eq (hcontents : s.contents <+: s'.contents) (hhoisted : s'.hoisted = s.hoisted)
    (hdeclared : ∀ n : Name, n.isIn s.declared → n.isIn s'.declared) : Grows s s' where
  contents := hcontents
  hoisted := ⟨[], by rw [hhoisted, List.append_nil], by simp⟩
  knows n hn := by
    rw [EmissionState.knows, Bool.or_eq_true] at hn ⊢
    rw [hhoisted]
    exact hn.imp_left (hdeclared n)

/-- A line written, where the names stay as they are. -/
theorem line {c : Content} (hcontents : s'.contents = s.contents ++ [c])
    (hhoisted : s'.hoisted = s.hoisted) (hdeclared : s'.declared = s.declared) :
    Grows s s' :=
  of_eq ⟨[c], hcontents.symm⟩ hhoisted fun n hn => by rwa [hdeclared]

theorem refl (s : EmissionState) : Grows s s := of_eq List.prefix_rfl rfl fun _ hn => hn

theorem trans (h : Grows s s') (h' : Grows s' t) : Grows s t where
  contents := h.contents.trans h'.contents
  hoisted := by
    obtain ⟨more, hmore, hnew⟩ := h.hoisted
    obtain ⟨more', hmore', hnew'⟩ := h'.hoisted
    refine ⟨more ++ more', by rw [hmore', hmore, List.append_assoc], fun d hd => ?_⟩
    rcases List.mem_append.mp hd with hd | hd
    · exact hnew d hd
    · have hunknown := hnew' d hd
      by_contra hknown
      rw [h.knows d.1 (by simpa using hknown)] at hunknown
      cases hunknown
  knows n hn := h'.knows n (h.knows n hn)

theorem noteUse (b : Backend) (s : EmissionState) (n : Name) (type : ValueType) :
    Grows s (s.noteUse b n type) := by
  unfold EmissionState.noteUse
  split
  · exact refl s
  · rename_i hunknown
    refine ⟨List.prefix_rfl, ⟨[(n, type)], rfl, by simpa using hunknown⟩, ?_⟩
    · intro k hk
      rw [EmissionState.knows, Bool.or_eq_true] at hk ⊢
      refine hk.imp_right fun hk => ?_
      show (k.typeIn? (s.hoisted ++ [(n, type)])).isSome
      rw [Name.typeIn?_append, Option.isSome_or, hk, Bool.true_or]

/-- The type of a hoisted name that is known stays the same. -/
theorem typeIn?_eq (h : Grows s s') (hn : s.knows n) :
    n.typeIn? s'.hoisted = n.typeIn? s.hoisted := by
  obtain ⟨more, hmore, hnew⟩ := h.hoisted
  have hnone : more.find? (·.1.same n) = none := by
    refine List.find?_eq_none.mpr fun d hd hsame => ?_
    have hknown := hnew d hd
    rw [knows_of_same hsame hn] at hknown
    cases hknown
  rw [Name.typeIn?, Name.typeIn?, hmore, List.find?_append, hnone, Option.or_none]

end Grows
end EmissionState

namespace Emission
open EmissionState Content

variable {s s' t : EmissionState} {i : Instruction} {is : List Instruction} {k : Nat}
  {upcoming : Option Instruction}

theorem typesRecord_noteReads {operands : List Operand} (h : noteReads .cpp s operands = .ok t)
    (hknown : DeclaresKnown s) (hs : TypesRecord s) : TypesRecord t := by
  rw [noteReads_eq h]
  clear h
  generalize operands.filterMap Operand.name? = names
  induction names generalizing s with
  | nil => exact hs
  | cons n names ih => exact ih (hknown.noteUse n _) (hs.noteUse hknown n _)

theorem grows_foldl_noteUse (b : Backend) (names : List Name) (type : ValueType) :
    Grows s (names.foldl (fun s n => s.noteUse b n type) s) := by
  induction names generalizing s with
  | nil => exact .refl s
  | cons n names ih => exact (Grows.noteUse b s n _).trans ih

theorem grows_noteReads {b : Backend} {operands : List Operand}
    (h : noteReads b s operands = .ok t) :
    Grows s t := by
  rw [noteReads_eq h]
  exact grows_foldl_noteUse b _ _

theorem Enters.typesRecord (h : Enters s s') (hs : TypesRecord s) : TypesRecord s' := by
  cases h with
  | nothing => exact hs
  | function => exact hs.extend (contents_writeStatement _) (by simp [isDeclaration]) rfl rfl

theorem Enters.grows (h : Enters s s') : Grows s s' := by
  cases h with
  | nothing => exact .refl s
  | function => exact .line (contents_writeStatement _) rfl rfl

theorem Performs.typesRecord (h : Performs .cpp upcoming s i s') (ha : ScopesAgree s)
    (hknown : DeclaresKnown s) (hs : TypesRecord s) : TypesRecord s' := by
  cases h with
  | declareUntyped hb => cases hb
  | declareTyped => exact hs.declare ha.scopesAfter_ne_nil (contents_writeStatement _) rfl rfl
  | declareAgain | param | func => exact hs.extend (List.append_nil _).symm (by simp) rfl rfl
  | mov _ _ hreads | binary _ _ hreads =>
    have hread := typesRecord_noteReads hreads hknown hs
    exact (hread.noteUse (declaresKnown_noteReads hreads hknown) _ _).extend
      (contents_writeStatement _)
      (by simp [isDeclaration]) rfl rfl
  | cmp _ _ hreads =>
    exact (typesRecord_noteReads hreads hknown hs).extend (List.append_nil _).symm (by simp) rfl rfl
  | ret _ hreads =>
    exact (typesRecord_noteReads hreads hknown hs).extend (contents_writeStatement _)
      (by simp [isDeclaration]) rfl rfl
  | branch => exact hs.extend (contents_openBlock _ _ _) (by simp [isDeclaration]) rfl rfl
  | jump => exact hs.extend (contents_write _) (by simp [isDeclaration]) rfl rfl
  | jumpClosing =>
    have hmarked : TypesRecord ((awaitLabel s i.label).write (.jumpMark (Name.ofOption i.label))) :=
      hs.extend (contents_write _) (by simp [isDeclaration]) rfl rfl
    exact hmarked.closeBlock
  | label => exact hs.extend (contents_write _) (by simp [isDeclaration]) rfl rfl
  | labelClosing => exact hs.closeBlock.extend (contents_write _) (by simp [isDeclaration]) rfl rfl
  | endFunc => exact hs.closeBlock

theorem Performs.grows (h : Performs .cpp upcoming s i s') : Grows s s' := by
  have hclose (s : EmissionState) : Grows s (s.closeBlock .cpp) := by
    obtain ⟨-, hhoisted, hdeclared⟩ := types_closeBlock .cpp s
    cases hb : s.blocks with
    | nil =>
      rw [closeBlock_nil .cpp hb]
      exact .refl s
    | cons block rest => exact .line (contents_closeBlock hb) hhoisted hdeclared
  cases h with
  | declareUntyped hb => cases hb
  | declareTyped =>
    exact .of_eq ⟨_, (contents_writeStatement _).symm⟩ rfl fun n hn => Name.isIn_addTo.mpr (.inl hn)
  | declareAgain | param =>
    exact .of_eq List.prefix_rfl rfl fun n hn => Name.isIn_addTo.mpr (.inl hn)
  | mov _ _ hreads | binary _ _ hreads =>
    exact ((grows_noteReads hreads).trans (.noteUse _ _ _ _)).trans
      (.line (contents_writeStatement _) rfl rfl)
  | cmp _ _ hreads =>
    exact (grows_noteReads hreads).trans (.of_eq List.prefix_rfl rfl fun _ hn => hn)
  | ret _ hreads => exact (grows_noteReads hreads).trans (.line (contents_writeStatement _) rfl rfl)
  | branch => exact .line (contents_openBlock _ _ _) rfl rfl
  | jump | label => exact .line (contents_write _) rfl rfl
  | func => exact .of_eq List.prefix_rfl rfl fun _ hn => hn
  | jumpClosing =>
    have hmarked : Grows s ((awaitLabel s i.label).write (.jumpMark (Name.ofOption i.label))) :=
      .line (contents_write _) rfl rfl
    exact hmarked.trans (hclose _)
  | labelClosing => exact (hclose s).trans (.line (contents_write _) rfl rfl)
  | endFunc => exact hclose s

/-- Every instruction keeps the record of the types. -/
theorem typesRecord_step (h : step .cpp upcoming s i = .ok s') (hd : Declaring s)
    (hs : TypesRecord s) :
    TypesRecord s' := by
  obtain ⟨t, u, henter, -, hperforms, rfl⟩ := step_cases h
  obtain ⟨ht, hrecord⟩ : Declaring t ∧ TypesRecord t := by
    rcases henter with ⟨-, rfl⟩ | ⟨-, henters⟩
    · exact ⟨hd, hs⟩
    · exact ⟨henters.declaring hd, henters.typesRecord hs⟩
  exact (hperforms.typesRecord ht.agree ht.known hrecord).extend (List.append_nil _).symm
    (by simp) rfl rfl

theorem grows_step (h : step .cpp upcoming s i = .ok s') : Grows s s' := by
  obtain ⟨t, u, henter, -, hperforms, rfl⟩ := step_cases h
  have ht : Grows s t := by
    rcases henter with ⟨-, rfl⟩ | ⟨-, henters⟩
    · exact .refl t
    · exact henters.grows
  exact (ht.trans hperforms.grows).trans (.of_eq List.prefix_rfl rfl fun _ hn => hn)

/-- What each step relates to the state before, the whole way from a position to a later one. -/
theorem after_relates {b : Backend} {R : EmissionState → EmissionState → Prop} (refl : ∀ t, R t t)
    (next : ∀ t u u' upcoming i, R t u → step b upcoming u i = .ok u' → R t u') {j : Nat}
    (hjk : j ≤ k) (hk : k ≤ is.length) (hj : after b s is j = .ok t) (h : after b s is k = .ok s') :
    R t s' := by
  induction k, hjk using Nat.le_induction generalizing s' with
  | base =>
    cases hj.symm.trans h
    exact refl t
  | succ k _ ih =>
    have hi : is[k]? = some is[k] := List.getElem?_eq_getElem hk
    rw [after_succ hi] at h
    obtain ⟨u, hu, hstep⟩ := bind_eq_ok.mp h
    exact next t u s' _ _ (ih (by omega) hu) hstep

theorem typesRecord_after (hk : k ≤ is.length) (h : after .cpp (initial .cpp) is k = .ok s) :
    Declaring s ∧ TypesRecord s :=
  after_invariant (P := fun _ t => Declaring t ∧ TypesRecord t) ⟨.initial, .initial⟩
    (fun _ _ _ _ _ ht hstep => ⟨declaring_step hstep ht.1, typesRecord_step hstep ht.1 ht.2⟩) hk h

end Emission

namespace Instruction

/-- The operands whose types decide the type of the result. -/
def inferredFrom (i : Instruction) : List Operand :=
  match i.opcode with
  | .mov => i.operands.take 1
  | .binary op => if op.isComparison then [] else i.operands
  | _ => []

def inferredType (i : Instruction) (types : List ValueType) : ValueType :=
  match i.opcode with
  | .mov => types.head?.getD .int
  | .binary op =>
    if op.isComparison then .bool
    else if op = .add && types.contains .string then .string
    else if types.contains .double then .double
    else .int
  | _ => .int

end Instruction

namespace Emission
open EmissionState Content

variable {s t : EmissionState} {i : Instruction} {is : List Instruction} {k : Nat} {o : Operand}
  {n : Name}

theorem resultType_eq (t : EmissionState) (i : Instruction) :
    resultType .cpp t i = i.inferredType (i.inferredFrom.map (operandType t)) := by
  unfold resultType Instruction.inferredType Instruction.inferredFrom
  cases hop : i.opcode with
  | mov => cases i.operands <;> simp
  | binary op => cases hcomp : op.isComparison <;> simp [hcomp]
  | _ => rfl

/-- At a position the type of a name that is hoisted there is inferred: the instruction writes a
name that is unknown after its operands were read, in the given state. -/
def Infers (is : List Instruction) (k : Nat) (i : Instruction) (t : EmissionState) : Prop :=
  is[k]? = some i ∧ (i.opcode = .mov ∨ ∃ op, i.opcode = .binary op) ∧
    (do
      let s ← after .cpp (initial .cpp) is k
      let s ← openFunction .cpp s
      noteReads .cpp s i.operands) = .ok t ∧
    t.knows (Name.ofOption i.dest) = false

theorem Performs.assigns {b : Backend} {upcoming : Option Instruction} {s' : EmissionState}
    (h : Performs b upcoming s i s') (hop : i.opcode = .mov ∨ ∃ op, i.opcode = .binary op) :
    ∃ t source, noteReads b s i.operands = .ok t ∧
      s' = (t.noteUse b (Name.ofOption i.dest) (resultType b t i)).writeStatement
        (.assign (Name.ofOption i.dest) source) := by
  cases h with
  | mov _ _ hreads | binary _ _ hreads => exact ⟨_, _, hreads, rfl⟩
  | branch ho => rcases hop with hop | ⟨op, hop⟩ <;> rw [hop] at ho <;> cases ho
  | declareUntyped _ ho | declareTyped _ ho | declareAgain _ ho | cmp ho | jump ho
  | jumpClosing ho | label ho | labelClosing ho | func ho | param ho | endFunc ho | ret ho =>
    rcases hop with hop | ⟨op, hop⟩ <;> cases ho.symm.trans hop

/-- Where a type is inferred, the name is hoisted with it and the assignment is the next line. -/
theorem Infers.hoisted (h : Infers is k i t) (hs : emit .cpp is = .ok s) : Grows t s ∧
    (Name.ofOption i.dest, resultType .cpp t i) ∈ s.hoisted ∧
    ∃ source, t.contents ++ [.assign (Name.ofOption i.dest) source] <+: s.contents := by
  obtain ⟨hi, hop, hreads, hunknown⟩ := h
  obtain ⟨s₀, hs₀, hreads⟩ := bind_eq_ok.mp hreads
  obtain ⟨u, hu, hreads⟩ := bind_eq_ok.mp hreads
  obtain ⟨hafter, -⟩ := after_length_of_emit hs
  have hk : k < is.length := (List.getElem?_eq_some_iff.mp hi).1
  obtain ⟨v, hv⟩ := exists_after (run_eq_after.trans hafter) (k := k + 1) hk
  have hlater : Grows v s :=
    after_relates .refl (fun _ _ _ _ _ h hstep => h.trans (grows_step hstep)) hk le_rfl hv hafter
  have hparam : i.opcode ≠ .param := by
    rcases hop with hop | ⟨op, hop⟩ <;> simp [hop]
  have hstep := hv
  rw [after_succ hi, hs₀, ok_bind, step_eq, if_neg hparam, hu, ok_bind] at hstep
  obtain ⟨_, -, hstep⟩ := bind_eq_ok.mp hstep
  obtain ⟨w, hw, hstep⟩ := bind_eq_ok.mp hstep
  obtain ⟨t', source, hreads', rfl⟩ := (performs_of_perform hw).assigns hop
  cases hreads.symm.trans hreads'
  -- The step ends with the assignment's line, which leaves the names as the note of its use left
  -- them.
  have hhoisted : v.hoisted =
      (t.noteUse .cpp (Name.ofOption i.dest) (resultType .cpp t i)).hoisted := by
    rw [← Except.ok.inj hstep]
    rfl
  have hdeclared : v.declared =
      (t.noteUse .cpp (Name.ofOption i.dest) (resultType .cpp t i)).declared := by
    rw [← Except.ok.inj hstep]
    rfl
  have hcontents : v.contents = t.contents ++ [.assign (Name.ofOption i.dest) source] := by
    have hline :=
      contents_writeStatement (s := t.noteUse .cpp (Name.ofOption i.dest) (resultType .cpp t i))
      (.assign (Name.ofOption i.dest) source)
    rw [contents_noteUse] at hline
    rw [← hline, ← Except.ok.inj hstep]
    rfl
  have hgrows : Grows t v := (Grows.noteUse .cpp t _ _).trans
    (.line (by rw [hcontents, contents_noteUse]) hhoisted hdeclared)
  refine ⟨hgrows.trans hlater, ?_, source, hcontents ▸ hlater.contents⟩
  obtain ⟨more, hmore, -⟩ := hlater.hoisted
  rw [hmore, hhoisted, noteUse, hunknown]
  simp [hoist]

/-- The state in which a type is inferred. -/
theorem Infers.record (h : Infers is k i t) : DeclaresKnown t ∧ TypesRecord t := by
  obtain ⟨hi, -, hreads, -⟩ := h
  obtain ⟨s₀, hs₀, hreads⟩ := bind_eq_ok.mp hreads
  obtain ⟨u, hu, hreads⟩ := bind_eq_ok.mp hreads
  obtain ⟨hdeclaring, hrecord⟩ := typesRecord_after (List.getElem?_eq_some_iff.mp hi).1.le hs₀
  have henters := enters_of_openFunction hu
  have hknown := (henters.declaring hdeclaring).known
  exact ⟨declaresKnown_noteReads hreads hknown,
    typesRecord_noteReads hreads hknown (henters.typesRecord hrecord)⟩

theorem mem_operands_of_inferredFrom (ho : o ∈ i.inferredFrom) : o ∈ i.operands := by
  unfold Instruction.inferredFrom at ho
  cases hop : i.opcode with
  | mov =>
    rw [hop] at ho
    exact List.mem_of_mem_take ho
  | binary op =>
    rw [hop] at ho
    dsimp only at ho
    split at ho
    · cases ho
    · exact ho
  | _ =>
    rw [hop] at ho
    cases ho

theorem operandType_of_name (t : EmissionState) (hn : o.name? = some n) :
    operandType t o = (n.typeIn? t.types).getD .int := by
  cases o with
  | const => cases hn
  | var m | temp m =>
    cases hn
    rfl

/-- The names of operands that were read are known. -/
theorem knows_of_noteReads {b : Backend} {operands : List Operand}
    (h : noteReads b s operands = .ok t) (ho : o ∈ operands) (hn : o.name? = some n)
    (hself : n.same n) : t.knows n := by
  have hmem : n ∈ operands.filterMap Operand.name? := List.mem_filterMap.mpr ⟨o, ho, hn⟩
  obtain ⟨before, rest, hnames⟩ := List.append_of_mem hmem
  rw [noteReads_eq h, hnames, List.foldl_append, List.foldl_cons]
  exact (grows_foldl_noteUse b rest _).knows n (knows_noteUse b _ _ hself)

/-- A type is inferred from the last declaration of a name, in whatever block. -/
theorem Infers.operandType_eq (h : Infers is k i t) (hs : emit .cpp is = .ok s)
    (ho : o ∈ i.inferredFrom) (hn : o.name? = some n) (hself : n.same n) :
    operandType t o = ((latest t.contents n).or (n.typeIn? s.hoisted)).getD .int := by
  have hknown : t.knows n := by
    obtain ⟨-, -, hreads, -⟩ := h
    obtain ⟨s₀, -, hreads⟩ := bind_eq_ok.mp hreads
    obtain ⟨u, -, hreads⟩ := bind_eq_ok.mp hreads
    exact knows_of_noteReads hreads (mem_operands_of_inferredFrom ho) hn hself
  rw [operandType_of_name t hn, h.record.2.recorded, (h.hoisted hs).1.typeIn?_eq hknown]

/-- The last declaration of a name is in force as long as its block is open, unless a parameter
hides it. -/
theorem inForce_of_lastDeclares {top : List (Name × ValueType)} {type : ValueType}
    {rest : List Content} (hknown : DeclaresKnown t) (hrecord : TypesRecord t)
    (hlast : LastDeclares t.contents n type rest) (hinside : StaysInside rest)
    (hparam : inForce top t.contents n ≠ some none) :
    inForce top t.contents n = some (some type) := by
  obtain ⟨before, c, htext, hc, hrest⟩ := hlast
  obtain ⟨m, rfl, hm⟩ := typeFor_eq_some hc
  have hline : t.contents[before.length]? = some (.declare type m) := by simp [htext]
  have hplace := hrecord.placed before.length type m hline
  have hnew := hknown.once.line before.length type m hline
  have htake : t.contents.take before.length = before := by simp [htext]
  rw [htake] at hplace hnew
  rw [← names_declarationsAfter] at hplace
  obtain ⟨scope, outer, hbefore⟩ := List.exists_cons_of_ne_nil (List.map_eq_nil_iff.not.mp hplace)
  rw [htext] at hparam ⊢
  refine inForce_of_staysInside hm hbefore (fun d hd => ?_) hrest hinside hparam
  have hblock : d.1 ∈ blockNames t.naming.hoisted before := by
    have hmem : d.1 ∈ scope.map (·.1) := List.mem_map_of_mem hd
    unfold blockNames
    rw [← names_declarationsAfter, hbefore, List.map_cons]
    cases outer with
    | nil => exact List.mem_append_right _ hmem
    | cons => exact hmem
  by_contra hsame
  have hother := hnew d.1 hblock
  rw [Name.same_trans (by simpa using hsame) (Name.same_symm hm)] at hother
  cases hother

/-- How the type that is inferred from a name stands to its declaration in force. -/
theorem Infers.inForce (h : Infers is k i t) (hs : emit .cpp is = .ok s) (ho : o ∈ i.inferredFrom)
    (hn : o.name? = some n) (hself : n.same n)
    (hparam : inForce s.hoisted t.contents n ≠ some none) :
    (∀ before m type rest, t.contents = before ++ .declare type m :: rest → m.same n →
      (∀ d ∈ rest, d.typeFor n = none) → operandType t o = type ∧
        (StaysInside rest → inForce s.hoisted t.contents n = some (some type)) ∧
        (¬ StaysInside rest → inForce s.hoisted t.contents n =
          visible s.hoisted ((declarationsAfter before).drop (levels rest).2) n)) ∧
    (latest t.contents n = none →
      (inForce s.hoisted t.contents n = some (some (operandType t o)) ↔
        n.isIn s.naming.hoisted)) := by
  obtain ⟨hknown, hrecord⟩ := h.record
  rw [h.operandType_eq hs ho hn hself]
  constructor
  · intro before m type rest htext hm hrest
    have hlast : LastDeclares t.contents n type rest :=
      ⟨before, .declare type m, htext, if_pos hm, hrest⟩
    refine ⟨?_, fun hinside => ?_, fun hclosed => ?_⟩
    · rw [latest_eq_some.mpr ⟨rest, hlast⟩, Option.some_or, Option.getD_some]
    · exact inForce_of_lastDeclares hknown hrecord hlast hinside hparam
    · rw [htext] at hparam ⊢
      exact inForce_of_closed hrest hclosed hparam
  · intro hlatest
    have htop : n.isIn s.naming.hoisted ↔ (n.typeIn? s.hoisted).isSome := Name.isSome_typeIn?.symm
    rw [inForce_of_latest_none hlatest hparam, htop, hlatest, Option.none_or]
    cases n.typeIn? s.hoisted <;> simp

end Emission

open Emission EmissionState Content Lowering

/-- Types are inferred from the declaration that was written last. Let a tree lower, and let its
typed text infer the type of a hoisted name: it is computed from the types of operands, and the type
of an operand is that on the last line before the assignment that declares its name, in whatever
block, or else that of the hoisted name. Unless a parameter hides it, the declaration on that line
is in force if its block is still open. If not, the one in force is that which is visible in the
blocks around those that were closed, and its type may be another. Where no line declares the name,
it has the type of its declaration in force if it is hoisted. -/
theorem inferred_type_in_force {limits : Limits} (tree : Node) {code : List Instruction}
    (h : tree.lower limits = .ok code) :
    (∃ s, emit .cpp code = .ok s ∧
      (∀ k i t, Infers code k i t →
        (Name.ofOption i.dest, i.inferredType (i.inferredFrom.map (operandType t))) ∈ s.hoisted ∧
        ∃ source, t.contents ++ [.assign (Name.ofOption i.dest) source] <+: s.contents) ∧
      ∀ k i t o n, Infers code k i t → o ∈ i.inferredFrom → o.name? = some n →
        operandType t o = ((latest t.contents n).or (n.typeIn? s.hoisted)).getD .int ∧
        (inForce s.hoisted t.contents n ≠ some none →
          (∀ before m type rest, t.contents = before ++ .declare type m :: rest → m.same n →
            (∀ d ∈ rest, d.typeFor n = none) → operandType t o = type ∧
              (StaysInside rest → inForce s.hoisted t.contents n = some (some type)) ∧
              (¬ StaysInside rest → inForce s.hoisted t.contents n =
                visible s.hoisted ((declarationsAfter before).drop (levels rest).2) n)) ∧
          (latest t.contents n = none →
            (inForce s.hoisted t.contents n = some (some (operandType t o)) ↔
              n.isIn s.naming.hoisted)))) ∨
    (emit .cpp code = .error (.fault (.digitLimit none)) ∧ tree.HasLongInteger) := by
  rcases emit_of_lower h .cpp with ⟨s, hs, -⟩ | hlimit
  · refine .inl ⟨s, hs, fun k i t hinfers => ?_, fun k i t o n hinfers ho hn => ?_⟩
    · rw [← resultType_eq]
      exact (hinfers.hoisted hs).2
    · have hself : n.same n := by
        have hcomplete := lower_complete h i (List.mem_of_getElem? hinfers.1)
        have huses : n ∈ i.uses := by
          have hmem : n ∈ i.operands.filterMap Operand.name? :=
            List.mem_filterMap.mpr ⟨o, mem_operands_of_inferredFrom ho, hn⟩
          rcases hinfers.2.1 with hop | ⟨op, hop⟩ <;>
            simpa only [Instruction.uses, hop] using List.mem_append_left _ hmem
        obtain ⟨x, rfl⟩ := exists_text_of_uses hcomplete huses
        simp [Name.same]
      exact ⟨hinfers.operandType_eq hs ho hn hself, hinfers.inForce hs ho hn hself⟩
  · exact .inr hlimit

/-- `var x = 1.5; if (c) { y = x; }` -/
def copiedInside : Node :=
  .program none
    [.declaration none "var"
        [.declarator none (.identifier none "x")
        (some (.literal none (.float (.finite false 3 (-1))) "1.5"))],
      .conditional none (.identifier none "c")
        (.block none [.expression none
          (.assignment none "=" (.identifier none "y") (.identifier none "x"))]) none]

theorem copiedInside_inferred_in_force :
    ∃ code s t, copiedInside.lower {} = .ok code ∧ emit .cpp code = .ok s ∧
      Infers code 4 (.mov "y" (.var "x") .unknown) t ∧
      inForce s.hoisted t.contents "x" = some (some (operandType t (.var "x"))) ∧
      (.text "y", .double) ∈ s.hoisted := by
  have hruns : ∃ code s t, copiedInside.lower {} = .ok code ∧ emit .cpp code = .ok s ∧
      Infers code 4 (.mov "y" (.var "x") .unknown) t ∧
      inForce s.hoisted t.contents "x" ≠ some none ∧ operandType t (.var "x") = .double ∧
      t.contents = [.declare .double "x",
        .assign "x" (.copy (.const (.float (.finite false 3 (-1))) "1.5")),
        .openBranch true (.var "c")] := by
    refine ⟨_, _, _, rfl, rfl, ⟨rfl, .inl rfl, rfl, rfl⟩, ?_, rfl, rfl⟩
    decide
  obtain ⟨code, s, t, hlower, hs, hinfers, hparam, htype, htext⟩ := hruns
  have hinside : StaysInside
      [.assign "x" (.copy (.const (.float (.finite false 3 (-1))) "1.5")),
      .openBranch true (.var "c")] := by
    intro k
    exact (List.take_sublist k _).countP_le.trans (Nat.zero_le _)
  rcases inferred_type_in_force copiedInside hlower with ⟨s', hs', hhoisted, hiff⟩ | ⟨herror, -⟩
  · cases hs.symm.trans hs'
    obtain ⟨-, hforce⟩ := hiff 4 _ t (.var "x") "x" hinfers (List.mem_singleton_self _) rfl
    obtain ⟨htype', hopen, -⟩ := (hforce hparam).1 [] "x" .double _ htext rfl (by simp [typeFor])
    have hy := (hhoisted 4 _ t hinfers).1
    refine ⟨code, s, t, hlower, hs, hinfers, htype' ▸ hopen hinside, ?_⟩
    rw [← htype]
    exact hy
  · cases hs.symm.trans herror

/-- `var x; if (c) { var x = 1.5; } y = x;` -/
def redeclaredInside : Node :=
  .program none
    [.declaration none "var" [.declarator none (.identifier none "x") none],
      .conditional none (.identifier none "c")
        (.block none [.declaration none "var" [.declarator none (.identifier none "x")
          (some (.literal none (.float (.finite false 3 (-1))) "1.5"))]]) none,
      .expression none (.assignment none "=" (.identifier none "y") (.identifier none "x"))]

/-- The type of the last name is taken from a block that is closed, not from the declaration in
force. -/
theorem redeclaredInside_inferred_not_in_force :
    ∃ code s t, redeclaredInside.lower {} = .ok code ∧ emit .cpp code = .ok s ∧
      Infers code 6 (.mov "y" (.var "x") .unknown) t ∧ operandType t (.var "x") = .double ∧
      inForce s.hoisted t.contents "x" = some (some .int) ∧
      s.hoisted = [(.text "c", .int), (.text "y", .double)] :=
  ⟨_, _, _, rfl, rfl, ⟨rfl, .inl rfl, rfl, rfl⟩, rfl, rfl, rfl⟩

end Sil
