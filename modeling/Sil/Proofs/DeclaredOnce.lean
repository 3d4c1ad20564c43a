import Mathlib
import Sil.Proofs.BlockScopes

/-!
Declarations of the typed text. Each block declares a name once: no declaration line repeats a name
that its block declares already, a hoisted name or a parameter, and a declaration is left out only
where its block has one. What makes this work is that the scope map of an emission forgets nothing
that the text declares in a block that is still open.
-/
namespace Sil

namespace Name

/-- Names are the same if they have a key and it is the same. -/
theorem same_iff {m n : Name} : m.same n ↔ ∃ k, m.key? = some k ∧ n.key? = some k := by
  have hkeys : m.same n = (m.key?.isSome && m.key? == n.key?) := by
    cases m with
    | text x =>
      cases n with
      | text y => simp [same, key?]
      | _ => rfl
    | _ => rfl
  rw [hkeys]
  cases m.key? with
  | none => simp
  | some k => simpa using eq_comm

theorem same_symm {m n : Name} (h : m.same n) : n.same m := by
  obtain ⟨k, hm, hn⟩ := same_iff.mp h
  exact same_iff.mpr ⟨k, hn, hm⟩

theorem same_trans {m n o : Name} (h : m.same n) (h' : n.same o) : m.same o := by
  obtain ⟨k, hm, hn⟩ := same_iff.mp h
  obtain ⟨l, hn', ho⟩ := same_iff.mp h'
  obtain rfl : k = l := Option.some.inj (hn.symm.trans hn')
  exact same_iff.mpr ⟨k, hm, ho⟩

theorem isIn_iff {n : Name} {names : List Name} : n.isIn names ↔ ∃ m ∈ names, m.same n := by
  simp [isIn]

theorem isIn_addTo {m n : Name} {names : List Name} :
    m.isIn (n.addTo names) ↔ m.isIn names ∨ n.same m := by
  unfold addTo
  split
  · rename_i hin
    refine ⟨.inl, fun h => h.elim id fun hsame => ?_⟩
    obtain ⟨k, hk, hkn⟩ := isIn_iff.mp hin
    exact isIn_iff.mpr ⟨k, hk, same_trans hkn hsame⟩
  · simp [isIn]

theorem isIn_foldl_addTo {m : Name} {ns names : List Name} :
    m.isIn (ns.foldl (fun acc n => n.addTo acc) names) ↔ m.isIn names ∨ ∃ n ∈ ns, n.same m := by
  induction ns generalizing names with
  | nil => simp
  | cons n ns ih => rw [List.foldl_cons, ih, isIn_addTo, List.exists_mem_cons_iff, or_assoc]

end Name

/-- A name that is found at some depth is still found there when another one is added anywhere. -/
theorem ScopeMap.isIn_names_add {scopes : ScopeMap} {d e : Nat} {m n : Name}
    (h : m.isIn (scopes.names d)) : m.isIn ((scopes.add e n).names d) := by
  rw [names_add]
  split
  · rename_i heq
    rw [heq] at h
    exact Name.isIn_addTo.mpr (.inl h)
  · exact h

namespace Content

/-- The names declared in the innermost block after some lines: by its lines, as its function's
parameters, and in the block of the whole program also those that are declared at the top. -/
def blockNames (top : List Name) (before : List Content) : List Name :=
  match scopesAfter before with
  | [] => []
  | [outermost] => top ++ outermost
  | innermost :: _ => innermost

def isDeclaration : Content → Bool
  | .declare .. => true
  | _ => false

/-- No block declares a name twice, the names at the top counted. -/
structure DeclaresOnce (top : List Name) (text : List Content) : Prop where
  hoisted : top.Pairwise fun m n => m.same n = false
  line : ∀ k type n, text[k]? = some (.declare type n) →
    ∀ m ∈ blockNames top (text.take k), m.same n = false

theorem DeclaresOnce.append {top : List Name} {text : List Content} (h : DeclaresOnce top text)
    (c : Content)
    (hc : ∀ type n, c = .declare type n → ∀ m ∈ blockNames top text, m.same n = false) :
    DeclaresOnce top (text ++ [c]) where
  hoisted := h.hoisted
  line := by
    intro k type n hk
    refine (forall_line_append (P := fun before d => ∀ type n, d = .declare type n →
      ∀ m ∈ blockNames top before, m.same n = false)).mpr
        ⟨fun j d hj type n hd => ?_, hc⟩ k _ hk type n rfl
    subst hd
    exact h.line j type n hj

/-- Lines that declare nothing repeat nothing. -/
theorem DeclaresOnce.append_plain {top : List Name} {text more : List Content}
    (h : DeclaresOnce top text) (hmore : ∀ c ∈ more, c.isDeclaration = false) :
    DeclaresOnce top (text ++ more) := by
  induction more generalizing text with
  | nil => rwa [List.append_nil]
  | cons c more ih =>
    rw [List.append_cons]
    refine ih (h.append c fun type n hc => ?_) fun d hd => hmore d (List.mem_cons_of_mem _ hd)
    have hplain := hmore c List.mem_cons_self
    rw [hc] at hplain
    cases hplain

theorem mem_blockNames_append {top : List Name} {before : List Content} {m n : Name} :
    m ∈ blockNames (top ++ [n]) before → m ∈ blockNames top before ∨ m = n := by
  unfold blockNames
  split
  · exact .inl
  · simp only [List.mem_append, List.mem_singleton]
    tauto
  · exact .inl

/-- A name that no line declares can be declared at the top. -/
theorem DeclaresOnce.hoist {top : List Name} {text : List Content} (h : DeclaresOnce top text)
    {n : Name} (htop : ∀ m ∈ top, m.same n = false)
    (htext : ∀ type m, Content.declare type m ∈ text → n.same m = false) :
    DeclaresOnce (top ++ [n]) text where
  hoisted := by
    refine List.pairwise_append.mpr ⟨h.hoisted, List.pairwise_singleton _ _, ?_⟩
    intro m hm k hk
    obtain rfl := List.mem_singleton.mp hk
    exact htop m hm
  line k type m hk l hl := by
    obtain hl | rfl := mem_blockNames_append hl
    · exact h.line k type m hk l hl
    · exact htext type m (List.mem_of_getElem? hk)

end Content

namespace EmissionState
open Content

/-- The scope map of a typed emission records what the text declares: a name that is the same as one
that an open block declares is found at the depth of this block. -/
structure ScopesRecord (s : EmissionState) : Prop where
  level : ∀ m scope, (scopesAfter s.contents)[m]? = some scope →
    ∀ n ∈ scope, ∀ x : Name, n.same x → x.isIn (s.scopes.names (s.depth - m))
  top : ∀ n ∈ s.naming.hoisted, ∀ x : Name, n.same x → x.isIn (s.scopes.names Backend.cpp.baseDepth)

namespace ScopesRecord

variable {s t : EmissionState} {c : Content} {n : Name}

theorem initial : ScopesRecord (initial .cpp) where
  level m scope hm n hn := by
    cases m with
    | zero =>
      cases hm
      cases hn
    | succ m => cases hm
  top n hn := by cases hn

theorem congr (h : ScopesRecord s) (hdepth : t.depth = s.depth) (hscopes : t.scopes = s.scopes)
    (hhoisted : t.naming.hoisted = s.naming.hoisted)
    (hcontents : scopesAfter t.contents = scopesAfter s.contents) : ScopesRecord t where
  level := by
    rw [hdepth, hscopes, hcontents]
    exact h.level
  top := by
    rw [hscopes, hhoisted]
    exact h.top

/-- A line that neither declares a name nor opens or closes a block. -/
theorem write (h : ScopesRecord s)
    (hc : c.scope (scopesAfter s.contents) = scopesAfter s.contents) :
    ScopesRecord (s.write c) :=
  h.congr rfl rfl rfl (by rw [contents_write, scopesAfter_append, hc])

theorem writeStatement (h : ScopesRecord s)
    (hc : c.scope (scopesAfter s.contents) = scopesAfter s.contents) :
    ScopesRecord (s.writeStatement c) :=
  h.congr rfl rfl rfl (by rw [contents_writeStatement, scopesAfter_append, hc])

theorem hoist (h : ScopesRecord s) (n : Name) (type : ValueType) :
    ScopesRecord (s.hoist .cpp n type) where
  level m scope hm k hk x hx := ScopeMap.isIn_names_add (h.level m scope hm k hk x hx)
  top k hk x hx := by
    have hk : k ∈ s.naming.hoisted ++ [n] := by simpa [naming, EmissionState.hoist] using hk
    obtain hk | hk := List.mem_append.mp hk
    · exact ScopeMap.isIn_names_add (h.top k hk x hx)
    · obtain rfl := List.mem_singleton.mp hk
      show x.isIn ((s.scopes.add Backend.cpp.baseDepth k).names Backend.cpp.baseDepth)
      rw [ScopeMap.names_add, if_pos rfl]
      exact Name.isIn_addTo.mpr (.inr hx)

theorem noteUse (h : ScopesRecord s) (n : Name) (type : ValueType) :
    ScopesRecord (s.noteUse .cpp n type) := by
  unfold EmissionState.noteUse
  split
  · exact h
  · exact h.hoist n type

/-- A declaration in the innermost block. -/
theorem declare (h : ScopesRecord s) (hdepth : t.depth = s.depth)
    (hscopes : t.scopes = s.scopes.add s.depth n) (hhoisted : t.naming.hoisted = s.naming.hoisted)
    (hcontents : scopesAfter t.contents = (scopesAfter s.contents).modifyHead (· ++ [n])) :
    ScopesRecord t where
  level m scope hm k hk x hx := by
    rw [hcontents] at hm
    rw [hdepth, hscopes]
    cases hframes : scopesAfter s.contents with
    | nil =>
      rw [hframes] at hm
      cases hm
    | cons inner outer =>
      rw [hframes, List.modifyHead_cons] at hm
      cases m with
      | zero =>
        cases hm
        obtain hk | hk := List.mem_append.mp hk
        · exact ScopeMap.isIn_names_add (h.level 0 inner (by rw [hframes]; rfl) k hk x hx)
        · obtain rfl := List.mem_singleton.mp hk
          rw [Nat.sub_zero, ScopeMap.names_add, if_pos rfl]
          exact Name.isIn_addTo.mpr (.inr hx)
      | succ m =>
        exact ScopeMap.isIn_names_add (h.level (m + 1) scope (by rw [hframes]; exact hm) k hk x hx)
  top k hk x hx := by
    rw [hhoisted] at hk
    rw [hscopes]
    exact ScopeMap.isIn_names_add (h.top k hk x hx)

/-- A block opened one level further in, with all the names of its scope. -/
theorem push (h : ScopesRecord s) (hs : ScopesAgree s) (names scope : List Name)
    (hdepth : t.depth = s.depth + 1)
    (hscopes : ∀ d, t.scopes.names d = if d = s.depth + 1 then names else s.scopes.names d)
    (hnames : ∀ n ∈ scope, ∀ x : Name, n.same x → x.isIn names)
    (hhoisted : t.naming.hoisted = s.naming.hoisted)
    (hcontents : scopesAfter t.contents = scope :: scopesAfter s.contents) : ScopesRecord t where
  level m inner hm k hk x hx := by
    rw [hcontents] at hm
    rw [hdepth, hscopes]
    cases m with
    | zero =>
      cases hm
      rw [if_pos (Nat.sub_zero _)]
      exact hnames k hk x hx
    | succ m =>
      rw [if_neg (by omega), Nat.add_sub_add_right]
      exact h.level m inner hm k hk x hx
  top k hk x hx := by
    have hbase := hs.base
    rw [hhoisted] at hk
    rw [hscopes, if_neg (by omega)]
    exact h.top k hk x hx

/-- The innermost block closed. -/
theorem closeBlock (h : ScopesRecord s) (hn : s.IsNested .cpp) :
    ScopesRecord (s.closeBlock .cpp) := by
  cases hb : s.blocks with
  | nil =>
    rwa [closeBlock_nil .cpp hb]
  | cons block rest =>
    obtain ⟨hdepth, hblock⟩ : s.depth = block.depth + 1 ∧
        block.depth = Backend.cpp.baseDepth + rest.length := by
      rw [IsNested, hb] at hn
      exact ⟨hn.1, nested_length hn.2⟩
    have hcontents := scopesAfter_closeBlock hb
    have hclosed : (s.closeBlock .cpp).depth = block.depth ∧
        (s.closeBlock .cpp).scopes = s.scopes.upTo block.depth := by
      rw [closeBlock_cpp hb]
      exact ⟨rfl, rfl⟩
    obtain ⟨hdepth', hscopes⟩ := hclosed
    constructor
    · intro m inner hm k hk x hx
      rw [hcontents, List.getElem?_tail] at hm
      have hlevel : s.depth - (m + 1) = block.depth - m := by omega
      rw [hdepth', hscopes, ScopeMap.names_upTo, if_pos (Nat.sub_le _ _), ← hlevel]
      exact h.level (m + 1) inner hm k hk x hx
    · rw [naming_closeBlock]
      intro k hk x hx
      rw [hscopes, ScopeMap.names_upTo, if_pos (by omega)]
      exact h.top k hk x hx

end ScopesRecord
end EmissionState

namespace Emission
open EmissionState Content

variable {s s' t : EmissionState} {i : Instruction} {upcoming : Option Instruction}

theorem scopesRecord_noteReads {operands : List Operand} (h : noteReads .cpp s operands = .ok t)
    (hs : ScopesRecord s) : ScopesRecord t := by
  rw [noteReads_eq h]
  clear h
  generalize operands.filterMap Operand.name? = names
  induction names generalizing s with
  | nil => exact hs
  | cons n names ih => exact ih (hs.noteUse n _)

theorem Enters.scopesRecord (h : Enters s s') (ha : ScopesAgree s) (hs : ScopesRecord s) :
    ScopesRecord s' := by
  cases h with
  | nothing => exact hs
  | @function header =>
    refine hs.push ha _ (header.params.map Name.ofOption) rfl (fun d => ScopeMap.names_setNames)
      (fun n hn x hx => ?_) rfl ?_
    · exact Name.isIn_foldl_addTo.mpr (.inr ⟨n, hn, hx⟩)
    · simp [contents, EmissionState.openBlock, EmissionState.writeStatement, EmissionState.write,
        scope]

theorem Performs.scopesRecord (h : Performs .cpp upcoming s i s') (hn : s.IsNested .cpp)
    (ha : ScopesAgree s) (hs : ScopesRecord s) : ScopesRecord s' := by
  cases h with
  | declareUntyped hb => cases hb
  | declareTyped =>
    refine hs.declare rfl rfl rfl ?_
    rw [contents_writeStatement, scopesAfter_append]
    rfl
  | mov _ _ hreads | binary _ _ hreads =>
    exact ((scopesRecord_noteReads hreads hs).noteUse _ _).writeStatement rfl
  | cmp _ _ hreads => exact (scopesRecord_noteReads hreads hs).congr rfl rfl rfl rfl
  | ret _ hreads => exact (scopesRecord_noteReads hreads hs).writeStatement rfl
  | branch =>
    refine hs.push ha [] [] rfl (fun d => ?_) (by simp) rfl ?_
    · split
      · rename_i hd
        exact ha.above d (by omega)
      · rfl
    · rw [contents_openBlock, scopesAfter_append]
      rfl
  | jump => exact (hs.congr rfl rfl rfl rfl : ScopesRecord (awaitLabel s i.label)).write rfl
  | jumpClosing =>
    have hawait : ScopesRecord (awaitLabel s i.label) := hs.congr rfl rfl rfl rfl
    exact (hawait.write rfl).closeBlock hn
  | label => exact (hs.congr rfl rfl rfl rfl : ScopesRecord (meetLabel s i.label)).write rfl
  | labelClosing =>
    have hmeet : ScopesRecord (meetLabel (s.closeBlock .cpp) i.label) :=
      (hs.closeBlock hn).congr rfl rfl rfl rfl
    exact hmeet.write rfl
  | endFunc => exact hs.closeBlock hn
  | declareAgain | func | param => exact hs.congr rfl rfl rfl rfl

end Emission

namespace EmissionState
open Content

variable {s t : EmissionState} {n : Name}

/-- The text of a typed emission declares every name once in a block, and nothing that the emission
does not know. -/
structure DeclaresKnown (s : EmissionState) : Prop where
  once : DeclaresOnce s.naming.hoisted s.contents
  known : ∀ type m, Content.declare type m ∈ s.contents → ∀ x : Name, m.same x → x.isIn s.declared

/-- At the current depth the scope map finds the names of the innermost block of the text. -/
theorem isIn_names_iff (ha : ScopesAgree s) (hr : ScopesRecord s) :
    n.isIn (s.scopes.names s.depth) ↔ ∃ m ∈ blockNames s.naming.hoisted s.contents, m.same n := by
  have hheight := ha.height
  unfold blockNames
  cases hscopes : scopesAfter s.contents with
  | nil =>
    have hbase := ha.base
    rw [hscopes, List.length_nil] at hheight
    omega
  | cons inner outer =>
    have hlevel := ha.level 0 inner (by rw [hscopes]; rfl)
    have hinner := hr.level 0 inner (by rw [hscopes]; rfl)
    rw [Nat.sub_zero] at hlevel hinner
    rw [hscopes, List.length_cons] at hheight
    cases outer with
    | nil =>
      -- The outermost block has the hoisted names as well.
      have hdepth : s.depth = Backend.cpp.baseDepth := by
        rw [List.length_nil] at hheight
        omega
      constructor
      · intro hn
        obtain ⟨m, hm, hsame⟩ := Name.isIn_iff.mp hn
        obtain hm | ⟨-, hm⟩ := hlevel m hm
        · exact ⟨m, List.mem_append_right _ hm, hsame⟩
        · exact ⟨m, List.mem_append_left _ hm, hsame⟩
      · rintro ⟨m, hm, hsame⟩
        obtain hm | hm := List.mem_append.mp hm
        · rw [hdepth]
          exact hr.top m hm n hsame
        · exact hinner m hm n hsame
    | cons next rest =>
      constructor
      · intro hn
        obtain ⟨m, hm, hsame⟩ := Name.isIn_iff.mp hn
        obtain hm | ⟨hdepth, -⟩ := hlevel m hm
        · exact ⟨m, hm, hsame⟩
        · rw [List.length_cons] at hheight
          omega
      · rintro ⟨m, hm, hsame⟩
        exact hinner m hm n hsame

namespace DeclaresKnown

theorem initial : DeclaresKnown (EmissionState.initial .cpp) where
  once := ⟨List.Pairwise.nil, fun k type n hk => by cases hk⟩
  known type m hm := by cases hm

/-- Lines that declare nothing. -/
theorem extend (h : DeclaresKnown s) {more : List Content}
    (hcontents : t.contents = s.contents ++ more) (hmore : ∀ c ∈ more, c.isDeclaration = false)
    (hnaming : t.naming = s.naming) :
    DeclaresKnown t where
  once := by
    rw [hcontents, hnaming]
    exact h.once.append_plain hmore
  known type m hm x hx := by
    have hdeclared : t.declared = s.declared := congrArg Naming.declared hnaming
    rw [hcontents] at hm
    rw [hdeclared]
    obtain hm | hm := List.mem_append.mp hm
    · exact h.known type m hm x hx
    · cases hmore _ hm

/-- The first use of a name that is not known declares it at the top. -/
theorem noteUse (h : DeclaresKnown s) (n : Name) (type : ValueType) :
    DeclaresKnown (s.noteUse .cpp n type) where
  once := by
    rw [contents_noteUse, naming_noteUse, Naming.use]
    split
    · exact h.once
    · rename_i hknows
      obtain ⟨hdeclared, hhoisted⟩ : n.isIn s.declared = false ∧
        n.isIn s.naming.hoisted = false := by
        simpa [Naming.knows, naming] using hknows
      refine h.once.hoist (fun m hm => ?_) (fun type m hm => ?_)
      · by_contra hsame
        have hin := Name.isIn_iff.mpr ⟨m, hm, by simpa using hsame⟩
        rw [hhoisted] at hin
        cases hin
      · by_contra hsame
        have hin := h.known type m hm n (Name.same_symm (by simpa using hsame))
        rw [hdeclared] at hin
        cases hin
  known := by
    have hdeclared : (s.noteUse .cpp n type).declared = s.declared := by
      unfold EmissionState.noteUse
      split <;> rfl
    rw [contents_noteUse, hdeclared]
    exact h.known

/-- A name declared in the innermost block, where it is not declared yet. -/
theorem declare (h : DeclaresKnown s) {type : ValueType}
    (hnew : ∀ m ∈ blockNames s.naming.hoisted s.contents, m.same n = false)
    (hcontents : t.contents = s.contents ++ [.declare type n])
    (hnaming : t.naming = s.naming.declare n) : DeclaresKnown t where
  once := by
    rw [hcontents, hnaming]
    refine h.once.append _ fun type' n' hc => ?_
    cases hc
    exact hnew
  known type' m hm x hx := by
    have hdeclared : t.declared = n.addTo s.declared := congrArg Naming.declared hnaming
    rw [hcontents] at hm
    rw [hdeclared]
    apply Name.isIn_addTo.mpr
    obtain hm | hm := List.mem_append.mp hm
    · exact .inl (h.known type' m hm x hx)
    · cases List.mem_singleton.mp hm
      exact .inr hx

/-- Another name that is known. -/
theorem know (h : DeclaresKnown s) (hcontents : t.contents = s.contents)
    (hnaming : t.naming = s.naming.declare n) : DeclaresKnown t where
  once := by
    rw [hcontents, hnaming]
    exact h.once
  known type m hm x hx := by
    have hdeclared : t.declared = n.addTo s.declared := congrArg Naming.declared hnaming
    rw [hcontents] at hm
    rw [hdeclared]
    exact Name.isIn_addTo.mpr (.inl (h.known type m hm x hx))

theorem closeBlock (h : DeclaresKnown s) : DeclaresKnown (s.closeBlock .cpp) := by
  cases hb : s.blocks with
  | nil =>
    rwa [closeBlock_nil .cpp hb]
  | cons block rest =>
    exact h.extend (contents_closeBlock hb) (by simp [isDeclaration]) (naming_closeBlock .cpp s)

end DeclaresKnown
end EmissionState

namespace Emission
open EmissionState Content

variable {s s' t : EmissionState} {i : Instruction} {is : List Instruction} {k : Nat}
  {upcoming : Option Instruction}

theorem declaresKnown_noteReads {operands : List Operand} (h : noteReads .cpp s operands = .ok t)
    (hs : DeclaresKnown s) : DeclaresKnown t := by
  rw [noteReads_eq h]
  clear h
  generalize operands.filterMap Operand.name? = names
  induction names generalizing s with
  | nil => exact hs
  | cons n names ih => exact ih (hs.noteUse n _)

theorem Enters.declaresKnown (h : Enters s s') (hs : DeclaresKnown s) : DeclaresKnown s' := by
  cases h with
  | nothing => exact hs
  | function => exact hs.extend (contents_writeStatement _) (by simp [isDeclaration]) rfl

/-- How an instruction changes the text and the names that it knows. -/
theorem Performs.declaresKnown (h : Performs .cpp upcoming s i s') (ha : ScopesAgree s)
    (hr : ScopesRecord s) (hs : DeclaresKnown s) : DeclaresKnown s' := by
  cases h with
  | declareUntyped hb => cases hb
  | declareTyped hb ho hnew =>
    refine hs.declare (fun m hm => ?_) (contents_writeStatement _) rfl
    by_contra hsame
    rw [(isIn_names_iff ha hr).mpr ⟨m, hm, by simpa using hsame⟩] at hnew
    cases hnew
  | declareAgain => exact hs.know rfl rfl
  | param => exact hs.know rfl rfl
  | mov _ _ hreads | binary _ _ hreads =>
    exact ((declaresKnown_noteReads hreads hs).noteUse _ _).extend (contents_writeStatement _)
      (by simp [isDeclaration]) rfl
  | cmp _ _ hreads =>
    exact (declaresKnown_noteReads hreads hs).extend (List.append_nil _).symm (by simp) rfl
  | ret _ hreads =>
    exact (declaresKnown_noteReads hreads hs).extend (contents_writeStatement _)
      (by simp [isDeclaration]) rfl
  | branch => exact hs.extend (contents_openBlock _ _ _) (by simp [isDeclaration]) rfl
  | jump => exact hs.extend (contents_write _) (by simp [isDeclaration]) rfl
  | jumpClosing =>
    have hmarked :
        DeclaresKnown ((awaitLabel s i.label).write (.jumpMark (Name.ofOption i.label))) :=
      hs.extend (contents_write _) (by simp [isDeclaration]) rfl
    exact hmarked.closeBlock
  | label => exact hs.extend (contents_write _) (by simp [isDeclaration]) rfl
  | labelClosing =>
    exact hs.closeBlock.extend (contents_write _) (by simp [isDeclaration]) rfl
  | func => exact hs.extend (List.append_nil _).symm (by simp) rfl
  | endFunc => exact hs.closeBlock

structure Declaring (s : EmissionState) : Prop where
  nested : s.IsNested .cpp
  agree : ScopesAgree s
  record : ScopesRecord s
  known : DeclaresKnown s

theorem Declaring.initial : Declaring (initial .cpp) := ⟨rfl, .initial, .initial, .initial⟩

theorem Enters.declaring (h : Enters s s') (hs : Declaring s) : Declaring s' :=
  ⟨h.isNested hs.nested, h.scopesAgree hs.agree, h.scopesRecord hs.agree hs.record,
    h.declaresKnown hs.known⟩

/-- Every instruction keeps the declarations in order. -/
theorem declaring_step (h : step .cpp upcoming s i = .ok s') (hs : Declaring s) : Declaring s' := by
  have hnested := isNested_step h hs.nested
  have hagree := scopesAgree_step h hs.nested hs.agree
  obtain ⟨t, u, henter, -, hperforms, rfl⟩ := step_cases h
  have ht : Declaring t := by
    rcases henter with ⟨-, rfl⟩ | ⟨-, henters⟩
    · exact hs
    · exact henters.declaring hs
  refine ⟨hnested, hagree, ?_, ?_⟩
  · exact (hperforms.scopesRecord ht.nested ht.agree ht.record).congr rfl rfl rfl rfl
  · exact (hperforms.declaresKnown ht.agree ht.record ht.known).extend (List.append_nil _).symm
      (by simp) rfl

end Emission

namespace Naming

end Naming

open Emission EmissionState Content

end Sil
