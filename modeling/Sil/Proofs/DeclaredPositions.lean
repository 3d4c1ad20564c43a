import Mathlib
import Sil.Proofs.DeclaredOnce
import Sil.Proofs.OpenPositions
import Sil.Proofs.OpenScopes

/-!
Where a name is declared. The scope map of a typed emission goes by depth only; at each depth it
finds the names that were declared while the same positions were open, and in the program's own
block those that are hoisted as well. So a declaration is left out exactly where an earlier position
declares the name in the same block.
-/
namespace Sil

namespace Name

variable {m n : Name} {names : List Name}

theorem isIn_append_singleton : m.isIn (names ++ [n]) ↔ m.isIn names ∨ n.same m := by
  simp [isIn]

end Name

namespace Streams

variable (is : List Instruction)

/-- A position before `k` declares a name, with some positions open around it. -/
def DeclaredAmong (k : Nat) (stack : List Nat) (x : Name) : Prop :=
  ∃ j i n, j < k ∧ is[j]? = some i ∧ i.declares = some n ∧ n.same x ∧ openBefore is j = stack

/-- A scope map goes with the open positions: level by level it finds the names that are declared
there. -/
structure Located (k : Nat) (scopes : ScopeMap) (hoisted : List Name) : Prop where
  above : ∀ d, Backend.cpp.baseDepth + (openBefore is k).length < d → scopes.names d = []
  level : ∀ outer, outer <:+ openBefore is k → ∀ x : Name,
    x.isIn (scopes.names (Backend.cpp.baseDepth + outer.length)) ↔
      DeclaredAmong is k outer x ∨ (outer = [] ∧ x.isIn hoisted)

variable {is} {k : Nat} {i : Instruction} {n x : Name} {outer : List Nat}

theorem declaredAmong_succ (hi : is[k]? = some i) : DeclaredAmong is (k + 1) outer x ↔
    DeclaredAmong is k outer x ∨ ∃ n, i.declares = some n ∧ n.same x ∧ openBefore is k = outer := by
  constructor
  · rintro ⟨j, i', n, hj, hi', hn, hsame, hopen⟩
    by_cases hjk : j = k
    · subst hjk
      cases hi.symm.trans hi'
      exact .inr ⟨n, hn, hsame, hopen⟩
    · exact .inl ⟨j, i', n, by omega, hi', hn, hsame, hopen⟩
  · rintro (⟨j, i', n, hj, hi', hn, hsame, hopen⟩ | ⟨n, hn, hsame, hopen⟩)
    · exact ⟨j, i', n, by omega, hi', hn, hsame, hopen⟩
    · exact ⟨k, i, n, by omega, hi, hn, hsame, hopen⟩

theorem declaredAmong_succ_of_none (hi : is[k]? = some i) (hd : i.declares = none) :
    DeclaredAmong is (k + 1) outer x ↔ DeclaredAmong is k outer x := by
  simp [declaredAmong_succ hi, hd]

/-- Nothing is declared inside a position before it is reached. -/
theorem not_declaredAmong_self : ¬ DeclaredAmong is (k + 1) (k :: outer) x := by
  rintro ⟨j, i, n, hj, -, -, -, hopen⟩
  have hlt := lt_of_mem_openBefore k (hopen ▸ List.mem_cons_self)
  omega

theorem openBefore_of_declares (hi : is[k]? = some i) (hd : i.declares = some n) :
    openBefore is (k + 1) = openBefore is k := by
  rw [openBefore_succ hi]
  unfold Instruction.declares at hd
  cases ho : i.opcode <;> simp_all [shift]

namespace Located

variable {scopes scopes' : ScopeMap} {hoisted : List Name}

theorem initial : Located is 0 [] [] where
  above d _ := rfl
  level outer houter x := by
    have hnone : ¬ DeclaredAmong is 0 outer x := by
      rintro ⟨j, i, n, hj, -⟩
      omega
    simp [hnone, ScopeMap.names, Name.isIn]

/-- A name that is hoisted belongs to the program's own block. -/
theorem hoist (h : Located is k scopes hoisted) (n : Name) :
    Located is k (scopes.add Backend.cpp.baseDepth n) (hoisted ++ [n]) where
  above d hd := by
    rw [ScopeMap.names_add, if_neg (by omega)]
    exact h.above d hd
  level outer houter x := by
    rw [ScopeMap.names_add, Name.isIn_append_singleton]
    split
    · rename_i hbase
      obtain rfl : outer = [] := List.length_eq_zero_iff.mp (by omega)
      have hlevel := h.level [] houter x
      rw [List.length_nil, Nat.add_zero] at hlevel
      rw [Name.isIn_addTo, hlevel]
      tauto
    · rename_i hbase
      have hne : outer ≠ [] := by
        rintro rfl
        exact hbase rfl
      rw [h.level outer houter x]
      simp [hne]

/-- An instruction that neither declares a name nor opens or closes anything. -/
theorem keep (h : Located is k scopes hoisted) (hi : is[k]? = some i) (hd : i.declares = none)
    (hopen : openBefore is (k + 1) = openBefore is k) : Located is (k + 1) scopes hoisted where
  above := by
    rw [hopen]
    exact h.above
  level outer houter x := by
    rw [hopen] at houter
    rw [declaredAmong_succ_of_none hi hd]
    exact h.level outer houter x

/-- A name declared in the innermost block, where it may be found already. -/
theorem declare (h : Located is k scopes hoisted) (hi : is[k]? = some i) (hd : i.declares = some n)
    (hnames : ∀ d, scopes'.names d = if d = Backend.cpp.baseDepth + (openBefore is k).length then
      n.addTo (scopes.names d) else scopes.names d) : Located is (k + 1) scopes' hoisted where
  above d hlt := by
    rw [openBefore_of_declares hi hd] at hlt
    rw [hnames, if_neg (by omega)]
    exact h.above d hlt
  level outer houter x := by
    rw [openBefore_of_declares hi hd] at houter
    have hlevel := h.level outer houter x
    rw [hnames, declaredAmong_succ hi, hd]
    split
    · rename_i hlength
      obtain rfl : outer = openBefore is k := houter.eq_of_length (by omega)
      rw [Name.isIn_addTo, hlevel]
      simp only [Option.some.injEq, exists_eq_left', and_true]
      tauto
    · rename_i hlength
      have hne : openBefore is k ≠ outer := by
        rintro rfl
        exact hlength rfl
      rw [hlevel]
      simp [hne]

/-- A block opened: nothing is declared in it yet. -/
theorem push (h : Located is k scopes hoisted) (hi : is[k]? = some i) (hd : i.declares = none)
    (hopen : openBefore is (k + 1) = k :: openBefore is k)
    (hnames : ∀ d, scopes'.names d = scopes.names d) :
    Located is (k + 1) scopes' hoisted where
  above d hlt := by
    rw [hopen, List.length_cons] at hlt
    rw [hnames]
    exact h.above d (by omega)
  level outer houter x := by
    rw [hnames]
    rw [hopen] at houter
    obtain rfl | houter := List.suffix_cons_iff.mp houter
    · rw [h.above _ (by rw [List.length_cons]; omega)]
      simp [not_declaredAmong_self, Name.isIn]
    · rw [declaredAmong_succ_of_none hi hd]
      exact h.level outer houter x

/-- The innermost block closed: what was declared in it is forgotten. -/
theorem pop {p : Nat} (h : Located is k scopes hoisted) (hi : is[k]? = some i)
    (hd : i.declares = none) (hopen : openBefore is k = p :: openBefore is (k + 1)) :
    Located is (k + 1) (scopes.upTo (Backend.cpp.baseDepth + (openBefore is (k + 1)).length))
      hoisted where
  above d hlt := by
    rw [ScopeMap.names_upTo, if_neg (by omega)]
  level outer houter x := by
    have hle := houter.length_le
    have hsuffix : outer <:+ openBefore is k := hopen ▸ houter.trans (List.suffix_cons p _)
    rw [ScopeMap.names_upTo, if_pos (by omega), declaredAmong_succ_of_none hi hd]
    exact h.level outer hsuffix x

end Located
end Streams

namespace EmissionState

variable {b : Backend} {s : EmissionState} {is : List Instruction} {p : Nat} {stack : List Nat}

/-- The depth is that of the open positions. -/
theorem IsNested.depth_eq (hn : s.IsNested b)
    (hb : s.control.blocks = stack.map (Streams.frame is)) :
    s.depth = b.baseDepth + stack.length := by
  have hlength : s.blocks.length = stack.length := by
    simpa [control] using congrArg List.length hb
  rw [nested_length hn, hlength]

/-- The innermost open block is that of the innermost open position. -/
theorem IsNested.exists_block (hn : s.IsNested b)
    (hb : s.control.blocks = (p :: stack).map (Streams.frame is)) :
    ∃ block rest, s.blocks = block :: rest ∧ block.kind = (Streams.frame is p).1 ∧
      block.depth = b.baseDepth + stack.length := by
  obtain ⟨block, rest, heq, hframe, hrest⟩ := List.map_eq_cons_iff.mp hb
  have hlength : rest.length = stack.length := by simpa using congrArg List.length hrest
  rw [IsNested, heq] at hn
  refine ⟨block, rest, heq, congrArg Prod.fst hframe, ?_⟩
  rw [nested_length hn.2, hlength]

end EmissionState

namespace Emission
open EmissionState Streams

variable {s t u v : EmissionState} {i : Instruction} {is : List Instruction} {k : Nat}
  {upcoming : Option Instruction}

theorem located_noteUse (h : Located is k s.scopes s.naming.hoisted) (n : Name) (type : ValueType) :
    Located is k (s.noteUse .cpp n type).scopes (s.noteUse .cpp n type).naming.hoisted := by
  rw [naming_noteUse, EmissionState.noteUse, Naming.use, knows_eq]
  split
  · exact h
  · exact h.hoist n

theorem located_noteReads {operands : List Operand} (hreads : noteReads .cpp s operands = .ok t)
    (h : Located is k s.scopes s.naming.hoisted) : Located is k t.scopes t.naming.hoisted := by
  rw [noteReads_eq hreads]
  clear hreads
  generalize operands.filterMap Operand.name? = names
  induction names generalizing s with
  | nil => exact h
  | cons n names ih => exact ih (located_noteUse h n _)

theorem Enters.eq_of_header_none (h : Enters s t) (hs : s.header = none) : t = s := by
  cases h with
  | nothing => rfl
  | function hsome =>
    rw [hs] at hsome
    cases hsome

/-- A block closed takes the innermost position off. -/
theorem located_closeBlock {p : Nat} (h : Located is k s.scopes s.naming.hoisted)
    (hi : is[k]? = some i) (hd : i.declares = none) (hn : s.IsNested .cpp)
    (hb : s.control.blocks = (openBefore is k).map (frame is))
    (hopen : openBefore is k = p :: openBefore is (k + 1)) :
    Located is (k + 1) (s.closeBlock .cpp).scopes (s.closeBlock .cpp).naming.hoisted := by
  obtain ⟨block, rest, heq, -, hdepth⟩ := hn.exists_block (hopen ▸ hb)
  rw [naming_closeBlock, closeBlock_cpp heq]
  show Located is (k + 1) (s.scopes.upTo block.depth) s.naming.hoisted
  rw [hdepth]
  exact h.pop hi hd hopen

/-- Only the start of a function and its parameters change what is pending. -/
theorem Performs.header_eq {b : Backend} (h : Performs b upcoming t i u) (hfunc : i.opcode ≠ .func)
    (hparam : i.opcode ≠ .param) : u.header = t.header := by
  have huse (s : EmissionState) (n : Name) (type : ValueType) :
      (s.noteUse b n type).header = s.header :=
    congrArg Control.header (control_noteUse b s n type)
  cases h with
  | mov _ _ hreads | binary _ _ hreads => exact (huse _ _ _).trans (noteReads_frame huse hreads)
  | cmp _ _ hreads | ret _ hreads =>
    have hread := noteReads_frame huse hreads
    exact hread
  | jumpClosing => exact header_closeBlock b
  | labelClosing => exact header_closeBlock b
  | endFunc => exact header_closeBlock b
  | func ho => exact absurd ho hfunc
  | param ho => exact absurd ho hparam
  | _ => rfl

/-- An instruction keeps the scope map with the open positions. -/
theorem Performs.located (h : Performs .cpp is[k + 1]? t i u) (hi : is[k]? = some i)
    (hfunc : i.opcode ≠ .func) (hparam : i.opcode ≠ .param) (hn : t.IsNested .cpp)
    (hb : t.control.blocks = (openBefore is k).map (frame is))
    (hl : Located is k t.scopes t.naming.hoisted) :
    Located is (k + 1) u.scopes u.naming.hoisted := by
  have hdepth := hn.depth_eq hb
  cases h with
  | declareUntyped hb => cases hb
  | declareTyped _ ho =>
    refine hl.declare hi (n := Name.ofOption i.name) (by simp [Instruction.declares, ho])
      fun d => ?_
    show (t.scopes.add t.depth _).names d = _
    rw [ScopeMap.names_add, hdepth]
    split
    · rename_i hd
      rw [hd]
    · rfl
  | declareAgain _ ho hold =>
    refine hl.declare hi (n := Name.ofOption i.name) (by simp [Instruction.declares, ho])
      fun d => ?_
    show t.scopes.names d = _
    split
    · rename_i hd
      rw [hd, ← hdepth, Name.addTo, if_pos hold]
    · rfl
  | @mov r _ _ ho _ hreads | @binary r _ _ _ ho _ hreads =>
    have hused := located_noteUse (located_noteReads hreads hl) (Name.ofOption i.dest)
        (resultType .cpp r i)
    exact hused.keep hi (declares_eq_none (by simp [ho]) (by simp [ho]))
      (by simp [openBefore_succ hi, shift, ho])
  | cmp ho _ hreads | ret ho hreads =>
    have hread := located_noteReads hreads hl
    exact hread.keep hi (declares_eq_none (by simp [ho]) (by simp [ho]))
      (by simp [openBefore_succ hi, shift, ho])
  | branch ho =>
    have hd := declares_eq_none (ne_of_isConditionalJump ho rfl) (ne_of_isConditionalJump ho rfl)
    exact hl.push hi hd (openBefore_opens (.inr ⟨i.label, i, hi, ho, rfl⟩)) fun d => rfl
  | jump ho hopen =>
    refine hl.keep hi (declares_eq_none (by simp [ho]) (by simp [ho])) ?_
    rw [openBefore_jump hi ho hb, hopen]
    rfl
  | jumpClosing ho hclose =>
    obtain ⟨p, hopen⟩ := openBefore_closeEarly hb hi ho hclose
    have hd := declares_eq_none (i := i) (by simp [ho]) (by simp [ho])
    exact located_closeBlock (s := (awaitLabel t i.label).write (.jumpMark (Name.ofOption i.label)))
      hl hi hd hn hb hopen
  | label ho _ hopen =>
    exact hl.keep hi (declares_eq_none (by simp [ho]) (by simp [ho]))
      (openBefore_meet hb hi ho hopen)
  | labelClosing ho _ hclose =>
    obtain ⟨p, hopen⟩ := openBefore_close hb hi ho hclose
    exact located_closeBlock hl hi (declares_eq_none (by simp [ho]) (by simp [ho])) hn hb hopen
  | func ho => exact absurd ho hfunc
  | param ho => exact absurd ho hparam
  | endFunc ho hblocks =>
    have hne : t.control.blocks ≠ [] := by simp [EmissionState.control, hblocks]
    obtain ⟨p, hopen⟩ := openBefore_leave hb hi ho hne
    exact located_closeBlock hl hi (declares_eq_none (by simp [ho]) (by simp [ho])) hn hb hopen

variable (is) in
/-- What a typed emission keeps of the open positions. A function that is still pending counts as
open. -/
structure Follows (k : Nat) (s : EmissionState) : Prop where
  nested : s.IsNested .cpp
  blocks : s.control.enter.blocks = (openBefore is k).map (frame is)
  located : ∀ t, Enters s t → Located is k t.scopes t.naming.hoisted

theorem follows_initial : Follows is 0 (initial .cpp) where
  nested := rfl
  blocks := rfl
  located t ht := by
    rw [ht.eq_of_header_none rfl]
    exact .initial

/-- The start of a function opens an empty block. -/
theorem located_of_func (hi : is[k]? = some i) (ho : i.opcode = .func)
    (hdepth : t.depth = Backend.cpp.baseDepth + (openBefore is k).length)
    (hl : Located is k t.scopes t.naming.hoisted) (henters : Enters u v)
    (hheader : u.header = some { name := i.name })
    (hu : u.depth = t.depth ∧ u.scopes = t.scopes ∧ u.hoisted = t.hoisted) :
    Located is (k + 1) v.scopes v.naming.hoisted := by
  obtain ⟨hudepth, huscopes, huhoisted⟩ := hu
  have hhoisted : v.naming.hoisted = t.naming.hoisted := by
    rw [henters.naming_eq, naming, naming, huhoisted]
  rw [hhoisted]
  refine hl.push hi (declares_eq_none (by simp [ho]) (by simp [ho]))
    (openBefore_opens (.inl ⟨i, hi, ho⟩)) ?_
  intro d
  cases henters with
  | nothing hnone => simp [hheader] at hnone
  | function hsome =>
    cases hheader.symm.trans hsome
    show (ScopeMap.setNames (u.depth + 1) [] u.scopes).names d = _
    rw [ScopeMap.names_setNames, hudepth, huscopes]
    split
    · exact (hl.above d (by omega)).symm
    · rfl

/-- A parameter is declared in the block of the pending function. -/
theorem located_of_param {header : Header} (hi : is[k]? = some i) (ho : i.opcode = .param)
    (hs : Follows is k s) (hheader : s.header = some header) (henters : Enters u v)
    (huheader : u.header = some { header with params := header.params ++ [i.name] })
    (hu : u.depth = s.depth ∧ u.scopes = s.scopes ∧ u.hoisted = s.hoisted) :
    Located is (k + 1) v.scopes v.naming.hoisted := by
  obtain ⟨hudepth, huscopes, huhoisted⟩ := hu
  have hfunction := Enters.function hheader
  have hl := hs.located _ hfunction
  have hdepth := (hfunction.isNested hs.nested).depth_eq (hfunction.control_eq ▸ hs.blocks)
  have hhoisted : v.naming.hoisted = s.naming.hoisted := by
    rw [henters.naming_eq, naming, naming, huhoisted]
  rw [hfunction.naming_eq] at hl
  rw [hhoisted]
  refine hl.declare hi (n := Name.ofOption i.name) (by simp [Instruction.declares, ho]) ?_
  intro d
  cases henters with
  | nothing hnone => simp [huheader] at hnone
  | function hsome =>
    cases huheader.symm.trans hsome
    rw [← hdepth]
    show (ScopeMap.setNames (u.depth + 1) _ u.scopes).names d =
      if d = s.depth + 1 then
        Name.addTo _ ((ScopeMap.setNames (s.depth + 1) _ s.scopes).names d)
      else (ScopeMap.setNames (s.depth + 1) _ s.scopes).names d
    rw [ScopeMap.names_setNames, ScopeMap.names_setNames, hudepth, huscopes]
    split
    · rw [List.map_append, List.foldl_append]
      rfl
    · rfl

theorem follows_step {s' : EmissionState} (hi : is[k]? = some i) (hs : Follows is k s)
    (h : step .cpp is[k + 1]? s i = .ok s') : Follows is (k + 1) s' where
  nested := isNested_step h hs.nested
  blocks := by
    rw [openBefore_succ hi]
    exact blocks_shift hi hs.blocks (step_moves h)
  located v hv := by
    obtain ⟨t, u, henter, -, hperforms, rfl⟩ := step_cases h
    rcases henter with ⟨hparam, rfl⟩ | ⟨hparam, henters⟩
    · obtain ⟨header, hheader, rfl⟩ := hperforms.of_param hparam
      exact located_of_param hi hparam hs hheader hv rfl ⟨rfl, rfl, rfl⟩
    · have hn := henters.isNested hs.nested
      have hb : t.control.blocks = (openBefore is k).map (frame is) :=
        henters.control_eq ▸ hs.blocks
      have hl := hs.located t henters
      by_cases hfunc : i.opcode = .func
      · obtain rfl := hperforms.of_func hfunc
        exact located_of_func hi hfunc (hn.depth_eq hb) hl hv rfl ⟨rfl, rfl, rfl⟩
      · have hheader := (hperforms.header_eq hfunc hparam).trans henters.header_eq_none
        rw [hv.eq_of_header_none hheader]
        exact hperforms.located hi hfunc hparam hn hb hl

theorem follows_after (hk : k ≤ is.length) (h : after .cpp (initial .cpp) is k = .ok s) :
    Follows is k s :=
  after_invariant (P := Follows is) follows_initial
    (fun _ _ _ _ hi hs hstep => follows_step hi hs hstep) hk h

end Emission

namespace Streams

variable (is : List Instruction)

/-- Whether the name declared at a position is declared in the same block before it: by a position
with the same spans around it, or, outside all spans, at the top because it was used first. -/
def redeclares (k : Nat) (n : Name) : Bool :=
  ((List.range k).any fun j =>
    (is[j]?.bind Instruction.declares).any (·.same n) && decide (around is j = around is k)) ||
  (decide (around is k = ∅) && n.isIn ((is.take k).foldl Naming.step {}).hoisted)

variable {is} {k j : Nat} {i : Instruction} {n : Name}

theorem enclosing_of_not_label (h : ¬ OpAt is k .label) : enclosing is k = openBefore is k :=
  if_neg h

theorem Bracketed.around_eq_iff (h : Bracketed is) (hj : j < is.length) (hk : k < is.length)
    (hendj : ¬ OpAt is j .endFunc) (hendk : ¬ OpAt is k .endFunc) :
    around is j = around is k ↔ enclosing is j = enclosing is k := by
  constructor
  · intro heq
    apply eq_of_descending sorted_enclosing sorted_enclosing
    intro p
    rw [h.mem_enclosing_iff hj hendj, h.mem_enclosing_iff hk hendk, heq]
  · intro heq
    have hsub {j k : Nat} (hj : j < is.length) (hk : k < is.length) (hendj : ¬ OpAt is j .endFunc)
        (hendk : ¬ OpAt is k .endFunc) (heq : enclosing is j = enclosing is k) :
        around is j ⊆ around is k := by
      rintro ⟨p, q⟩ hs
      have hp := (h.mem_enclosing_iff hj hendj).mpr ⟨q, hs⟩
      obtain ⟨q', hs'⟩ := (h.mem_enclosing_iff hk hendk).mp (heq ▸ hp)
      obtain rfl : q = q' := h.span_unique (mem_around.mp hs).1 (mem_around.mp hs').1
      exact hs'
    exact Finset.Subset.antisymm (hsub hj hk hendj hendk heq) (hsub hk hj hendk hendj heq.symm)

theorem opcode_of_declares (h : i.declares = some n) : i.opcode = .decl ∨ i.opcode = .param := by
  unfold Instruction.declares at h
  cases ho : i.opcode <;> simp_all

/-- Two declarations stand in the same block if the same positions are open at them. -/
theorem Bracketed.same_block_iff {i' : Instruction} {n' : Name} (h : Bracketed is)
    (hi : is[j]? = some i) (hn : i.declares = some n) (hi' : is[k]? = some i')
    (hn' : i'.declares = some n') :
    around is j = around is k ↔ openBefore is j = openBefore is k := by
  have hother {m : Nat} {i : Instruction} {n : Name} (hi : is[m]? = some i)
      (hn : i.declares = some n) :
      m < is.length ∧ ¬ OpAt is m .endFunc ∧ ¬ OpAt is m .label := by
    refine ⟨(List.getElem?_eq_some_iff.mp hi).1, ?_, ?_⟩
    · rw [opAt_iff hi]
      obtain ho | ho := opcode_of_declares hn <;> simp [ho]
    · rw [opAt_iff hi]
      obtain ho | ho := opcode_of_declares hn <;> simp [ho]
  obtain ⟨hj, hendj, hlabelj⟩ := hother hi hn
  obtain ⟨hk, hendk, hlabelk⟩ := hother hi' hn'
  rw [h.around_eq_iff hj hk hendj hendk, enclosing_of_not_label hlabelj,
    enclosing_of_not_label hlabelk]

theorem Bracketed.around_eq_empty_iff (h : Bracketed is) (hk : k < is.length)
    (hend : ¬ OpAt is k .endFunc) :
    around is k = ∅ ↔ enclosing is k = [] := by
  rw [← Finset.card_eq_zero, h.card_around hk hend, List.length_eq_zero_iff]

/-- A name is declared again if it was declared while the same positions were open. -/
theorem Bracketed.redeclares_iff (h : Bracketed is) (hi : is[k]? = some i) (ho : i.opcode = .decl)
    (x : Name) : redeclares is k x ↔ DeclaredAmong is k (openBefore is k) x ∨
      (openBefore is k = [] ∧ x.isIn ((is.take k).foldl Naming.step {}).hoisted) := by
  have hdeclares : i.declares = some (Name.ofOption i.name) := by simp [Instruction.declares, ho]
  have hlength : k < is.length := (List.getElem?_eq_some_iff.mp hi).1
  have hend : ¬ OpAt is k .endFunc := by simp [opAt_iff hi, ho]
  have hlabel : ¬ OpAt is k .label := by simp [opAt_iff hi, ho]
  have hbefore : (∃ j, j < k ∧ (is[j]?.bind Instruction.declares).any (·.same x) ∧
      around is j = around is k) ↔ DeclaredAmong is k (openBefore is k) x := by
    constructor
    · rintro ⟨j, hj, hany, haround⟩
      obtain ⟨n, hn, hsame⟩ := (Option.any_eq_true _ _).mp hany
      obtain ⟨i', hi', hn⟩ := Option.bind_eq_some_iff.mp hn
      exact ⟨j, i', n, hj, hi', hn, hsame, (h.same_block_iff hi' hn hi hdeclares).mp haround⟩
    · rintro ⟨j, i', n, hj, hi', hn, hsame, hopen⟩
      refine ⟨j, hj, ?_, (h.same_block_iff hi' hn hi hdeclares).mpr hopen⟩
      rw [hi', Option.bind_some, hn]
      exact hsame
  rw [redeclares, Bool.or_eq_true, Bool.and_eq_true, decide_eq_true_eq,
    h.around_eq_empty_iff hlength hend, enclosing_of_not_label hlabel, ← hbefore]
  simp only [List.any_eq_true, List.mem_range, Bool.and_eq_true, decide_eq_true_eq]

end Streams

namespace Emission
open EmissionState Streams

variable {s t : EmissionState} {i : Instruction} {is : List Instruction} {k : Nat}

/-- At a declaration the scope map finds the names that were declared in the same block before. -/
theorem isIn_names_eq_redeclares (h : Bracketed is) (hi : is[k]? = some i) (ho : i.opcode = .decl)
    (hs : after .cpp (initial .cpp) is k = .ok s) (henters : Enters s t) (n : Name) :
    n.isIn (t.scopes.names t.depth) = redeclares is k n := by
  have hk : k ≤ is.length := (List.getElem?_eq_some_iff.mp hi).1.le
  have hfollows := follows_after hk hs
  have hdepth := (henters.isNested hfollows.nested).depth_eq (henters.control_eq ▸ hfollows.blocks)
  have hlevel := (hfollows.located t henters).level (openBefore is k) List.suffix_rfl n
  have hnaming : t.naming = (is.take k).foldl Naming.step {} := by
    rw [henters.naming_eq, naming_after hk hs]
    rfl
  rw [← hdepth, hnaming] at hlevel
  rw [Bool.eq_iff_iff, hlevel, h.redeclares_iff hi ho]

end Emission
end Sil
