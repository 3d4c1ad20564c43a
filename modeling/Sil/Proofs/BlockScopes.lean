import Mathlib
import Sil.Proofs.EmissionNaming

/-!
Block scoping of the typed text. A declaration is visible until its block closes, a parameter until
its function does, and a hoisted name everywhere; `IsWellScoped` says that every line reads and
writes visible names only. The scope map of an emission names, at each depth, nothing but what the
text declares in the block that is open there: `ScopesAgree` is kept by every instruction.
-/
namespace Sil

namespace Name

theorem same_text (m : Name) (x : String) : m.same (.text x) ↔ m = .text x := by
  cases m with
  | absent => simp [same, key?]
  | text y => simp [same]
  | value v =>
    cases v with
    | bool b => cases b <;> simp [same, key?]
    | float f => cases f <;> simp [same, key?]
    | _ => simp [same, key?]

/-- A name that is text is looked up by its spelling. -/
theorem isIn_text {x : String} {names : List Name} :
    (Name.text x).isIn names ↔ .text x ∈ names := by
  simp [isIn, same_text]

theorem mem_addTo {m n : Name} {names : List Name} (h : m ∈ n.addTo names) : m ∈ names ∨ m = n := by
  unfold addTo at h
  split at h
  · exact .inl h
  · simpa using h

theorem mem_foldl_addTo {m : Name} {ns names : List Name}
    (h : m ∈ ns.foldl (fun acc n => n.addTo acc) names) : m ∈ names ∨ m ∈ ns := by
  induction ns generalizing names with
  | nil => exact .inl h
  | cons n ns ih =>
    rcases ih h with h | h
    · rcases mem_addTo h with h | rfl
      · exact .inl h
      · exact .inr List.mem_cons_self
    · exact .inr (List.mem_cons_of_mem n h)

end Name

namespace ScopeMap

variable {scopes : ScopeMap} {d e : Nat} {n : Name} {ns : List Name}

theorem names_setNames :
    names (setNames d ns scopes) e = if e = d then ns else names scopes e := by
  induction scopes with
  | nil =>
    by_cases h : e = d
    · simp [setNames, names, h]
    · simp [setNames, names, h, Ne.symm h]
  | cons entry rest ih =>
    obtain ⟨f, old⟩ := entry
    unfold setNames
    by_cases hf : f = d
    · subst hf
      by_cases h : e = f
      · simp [names, h]
      · simp [names, h, Ne.symm h]
    · rw [if_neg hf]
      by_cases hfe : f = e
      · subst hfe
        simp [names, hf]
      · have hskip (m : ScopeMap) : names ((f, old) :: m) e = names m e := by
          simp [names, hfe]
        rw [hskip, hskip, ih]

theorem names_add :
    names (add scopes d n) e = if e = d then n.addTo (names scopes d) else names scopes e :=
  names_setNames

/-- Closing a block forgets what is deeper than its opener. -/
theorem names_upTo : names (upTo scopes d) e = if e ≤ d then names scopes e else [] := by
  have hfind : (upTo scopes d).find? (·.1 == e) =
      if e ≤ d then scopes.find? (·.1 == e) else none := by
    rw [upTo, List.find?_filter]
    split
    · rename_i h
      congr 1
      funext entry
      by_cases he : entry.1 = e <;> simp [he, h]
    · rename_i h
      refine List.find?_eq_none.mpr fun entry _ => ?_
      by_cases he : entry.1 = e <;> simp [he, h]
  rw [names, hfind]
  split <;> rfl

end ScopeMap

def Source.names : Source → List Name
  | .copy operand => operand.name?.toList
  | .operation _ left right => [left, right].filterMap Operand.name?

namespace Content

/-- The variables that a line reads, and then the one that it writes. -/
def names : Content → List Name
  | .assign dest source => source.names ++ [dest]
  | .openBranch _ test => test.name?.toList
  | .ret value _ => (value.bind Operand.name?).toList
  | _ => []

/-- What a line does to the scopes of the open blocks, the innermost first. -/
def scope : Content → List (List Name) → List (List Name)
  | .declare _ n, scopes => scopes.modifyHead (· ++ [n])
  | .openBranch .., scopes => [] :: scopes
  | .openFunction _ params, scopes => params :: scopes
  | .close _, scopes => scopes.tail
  | _, scopes => scopes

/-- The scopes of the blocks that are open after some lines; the last is that of the whole
program. -/
def scopesAfter (text : List Content) : List (List Name) :=
  text.foldl (fun scopes c => c.scope scopes) [[]]

@[simp] theorem scopesAfter_append (text : List Content) (c : Content) :
    scopesAfter (text ++ [c]) = c.scope (scopesAfter text) := by
  simp [scopesAfter]

/-- A name is visible where it is declared at the top or in a block that is still open. -/
def Visible (top : List Name) (scopes : List (List Name)) (n : Name) : Prop :=
  n ∈ top ∨ ∃ scope ∈ scopes, n ∈ scope

/-- Each line reads and writes names that are visible where it stands. -/
def Scoped (top : List Name) (text : List Content) : Prop :=
  ∀ k c, text[k]? = some c → ∀ n ∈ c.names, Visible top (scopesAfter (text.take k)) n

/-- What is said of each line and those before it, when a line is added. -/
theorem forall_line_append {P : List Content → Content → Prop} {text : List Content} {c : Content} :
    (∀ k d, (text ++ [c])[k]? = some d → P ((text ++ [c]).take k) d) ↔
      (∀ k d, text[k]? = some d → P (text.take k) d) ∧ P text c := by
  constructor
  · intro h
    constructor
    · intro k d hd
      have hk : k < text.length := (List.getElem?_eq_some_iff.mp hd).1
      have hline := h k d (by rw [List.getElem?_append_left hk, hd])
      rwa [List.take_append_of_le_length hk.le] at hline
    · have hline := h text.length c (by simp)
      rwa [List.take_left] at hline
  · rintro ⟨htext, hc⟩ k d hd
    by_cases hk : k < text.length
    · rw [List.getElem?_append_left hk] at hd
      rw [List.take_append_of_le_length hk.le]
      exact htext k d hd
    · obtain ⟨rfl, rfl⟩ : k = text.length ∧ c = d := by
        have hlt := (List.getElem?_eq_some_iff.mp hd).1
        rw [List.length_append, List.length_singleton] at hlt
        have hk : k = text.length := by omega
        subst hk
        exact ⟨rfl, by simpa using hd⟩
      rwa [List.take_left]

theorem scoped_append {top : List Name} {text : List Content} {c : Content} :
    Scoped top (text ++ [c]) ↔
      Scoped top text ∧ ∀ n ∈ c.names, Visible top (scopesAfter text) n :=
  forall_line_append (P := fun before d => ∀ n ∈ d.names, Visible top (scopesAfter before) n)

end Content

namespace EmissionState
open Content

def contents (s : EmissionState) : List Content := s.lines.map (·.content)

def IsWellScoped (s : EmissionState) : Prop := Scoped s.naming.hoisted s.contents

variable {s : EmissionState}

@[simp] theorem contents_write (c : Content) : (s.write c).contents = s.contents ++ [c] := by
  simp [contents, write]

@[simp] theorem contents_writeStatement (c : Content) :
    (s.writeStatement c).contents = s.contents ++ [c] := contents_write c

@[simp] theorem contents_openBlock (kind : BlockKind) (label : Option String) (opener : Content) :
    (s.openBlock kind label opener).contents = s.contents ++ [opener] :=
  contents_writeStatement opener

@[simp] theorem contents_noteUse (b : Backend) (n : Name) (type : ValueType) :
    (s.noteUse b n type).contents = s.contents := by
  unfold noteUse
  split <;> rfl

theorem closeBlock_nil (b : Backend) (h : s.blocks = []) : s.closeBlock b = s := by
  rw [closeBlock, h]

theorem closeBlock_cpp {block : Block} {rest : List Block} (h : s.blocks = block :: rest) :
    s.closeBlock .cpp =
      { s with
        blocks := rest
        depth := block.depth
        scopes := s.scopes.upTo block.depth
        lines := s.lines ++ [⟨block.depth, .close block.kind⟩] } := by
  unfold closeBlock
  rw [h]
  cases hk : block.kind <;> simp [Backend.fillsEmptyBlocks, Backend.closer, write, hk]

theorem contents_closeBlock {block : Block} {rest : List Block} (h : s.blocks = block :: rest) :
    (s.closeBlock .cpp).contents = s.contents ++ [.close block.kind] := by
  rw [closeBlock_cpp h]
  simp [contents]

theorem scopesAfter_closeBlock {block : Block} {rest : List Block} (h : s.blocks = block :: rest) :
    scopesAfter (s.closeBlock .cpp).contents = (scopesAfter s.contents).tail := by
  rw [contents_closeBlock h, scopesAfter_append]
  rfl

/-- The scope map of a typed emission against the scopes of its text. Depth by depth a name of the
map is declared in the block that is open there; hoisted names belong to the program's own block. -/
structure ScopesAgree (s : EmissionState) : Prop where
  base : Backend.cpp.baseDepth ≤ s.depth
  height : (scopesAfter s.contents).length + Backend.cpp.baseDepth = s.depth + 1
  above : ∀ d, s.depth < d → s.scopes.names d = []
  level : ∀ m scope, (scopesAfter s.contents)[m]? = some scope →
    ∀ n ∈ s.scopes.names (s.depth - m),
      n ∈ scope ∨ (s.depth = m + Backend.cpp.baseDepth ∧ n ∈ s.naming.hoisted)

namespace ScopesAgree

variable {t : EmissionState} {c : Content} {n : Name}

theorem initial : ScopesAgree (initial .cpp) where
  base := le_rfl
  height := rfl
  above d _ := rfl
  level m scope _ n hn := by cases hn

/-- What decides whether the scopes agree. -/
theorem congr (h : ScopesAgree s) (hdepth : t.depth = s.depth) (hscopes : t.scopes = s.scopes)
    (hhoisted : t.naming.hoisted = s.naming.hoisted)
    (hcontents : scopesAfter t.contents = scopesAfter s.contents) : ScopesAgree t where
  base := hdepth ▸ h.base
  height := by
    rw [hdepth, hcontents]
    exact h.height
  above := by
    rw [hdepth, hscopes]
    exact h.above
  level := by
    rw [hdepth, hscopes, hcontents, hhoisted]
    exact h.level

/-- A line that neither declares a name nor opens or closes a block. -/
theorem write (h : ScopesAgree s) (hc : c.scope (scopesAfter s.contents) = scopesAfter s.contents) :
    ScopesAgree (s.write c) :=
  h.congr rfl rfl rfl (by rw [contents_write, scopesAfter_append, hc])

theorem writeStatement (h : ScopesAgree s)
    (hc : c.scope (scopesAfter s.contents) = scopesAfter s.contents) :
    ScopesAgree (s.writeStatement c) :=
  h.congr rfl rfl rfl (by rw [contents_writeStatement, scopesAfter_append, hc])

theorem hoist (h : ScopesAgree s) (n : Name) (type : ValueType) :
    ScopesAgree (s.hoist .cpp n type) where
  base := h.base
  height := h.height
  above d hd := by
    have hbase := h.base
    have hd : s.depth < d := hd
    show (s.scopes.add Backend.cpp.baseDepth n).names d = []
    rw [ScopeMap.names_add, if_neg (by omega)]
    exact h.above d hd
  level m scope hm k hk := by
    have hbase := h.base
    have hheight := h.height
    have hlt : m < (scopesAfter s.contents).length := (List.getElem?_eq_some_iff.mp hm).1
    have hk : k ∈ (s.scopes.add Backend.cpp.baseDepth n).names (s.depth - m) := hk
    have hhoisted : (s.hoist .cpp n type).naming.hoisted = s.naming.hoisted ++ [n] := by
      simp [naming, EmissionState.hoist]
    rw [hhoisted, List.mem_append, List.mem_singleton]
    have hold (hk : k ∈ s.scopes.names (s.depth - m)) := h.level m scope hm k hk
    rw [ScopeMap.names_add] at hk
    split at hk
    · rename_i hlevel
      rcases Name.mem_addTo hk with hk | rfl
      · rw [← hlevel] at hk
        exact (hold hk).imp_right (And.imp_right .inl)
      · have hdepth : s.depth = m + Backend.cpp.baseDepth := by omega
        exact .inr ⟨hdepth, .inr rfl⟩
    · exact (hold hk).imp_right (And.imp_right .inl)

theorem noteUse (h : ScopesAgree s) (n : Name) (type : ValueType) :
    ScopesAgree (s.noteUse .cpp n type) := by
  unfold EmissionState.noteUse
  split
  · exact h
  · exact h.hoist n type

theorem declare (h : ScopesAgree s) (hdepth : t.depth = s.depth)
    (hscopes : t.scopes = s.scopes.add s.depth n) (hhoisted : t.naming.hoisted = s.naming.hoisted)
    (hcontents : scopesAfter t.contents = (scopesAfter s.contents).modifyHead (· ++ [n])) :
    ScopesAgree t where
  base := hdepth ▸ h.base
  height := by
    rw [hdepth, hcontents, List.length_modifyHead]
    exact h.height
  above d hd := by
    rw [hdepth] at hd
    rw [hscopes, ScopeMap.names_add, if_neg (by omega)]
    exact h.above d hd
  level m scope hm k hk := by
    have hbase := h.base
    have hheight := h.height
    rw [hcontents] at hm
    rw [hdepth, hscopes, ScopeMap.names_add] at hk
    rw [hdepth, hhoisted]
    cases hframes : scopesAfter s.contents with
    | nil =>
      rw [hframes, List.length_nil] at hheight
      omega
    | cons inner outer =>
      rw [hframes, List.modifyHead_cons] at hm
      rw [hframes, List.length_cons] at hheight
      cases m with
      | zero =>
        -- The innermost block has one name more, in the map and in the text.
        cases hm
        have hinner := h.level 0 inner (by rw [hframes]; rfl) k
        rw [if_pos (Nat.sub_zero _)] at hk
        rcases Name.mem_addTo hk with hk | rfl
        · exact (hinner hk).imp_left (List.mem_append_left _)
        · exact .inl (List.mem_append_right _ (List.mem_singleton_self _))
      | succ m =>
        have hlt := (List.getElem?_eq_some_iff.mp hm).1
        rw [List.length_cons] at hlt
        rw [if_neg (by omega)] at hk
        exact h.level (m + 1) scope (by rw [hframes]; exact hm) k hk

/-- A block opened one level further in, with the names that it starts with. -/
theorem push (h : ScopesAgree s) (names scope : List Name) (hdepth : t.depth = s.depth + 1)
    (hscopes : ∀ d, t.scopes.names d = if d = s.depth + 1 then names else s.scopes.names d)
    (hnames : ∀ n ∈ names, n ∈ scope) (hhoisted : t.naming.hoisted = s.naming.hoisted)
    (hcontents : scopesAfter t.contents = scope :: scopesAfter s.contents) : ScopesAgree t where
  base := by
    have hbase := h.base
    omega
  height := by
    have hheight := h.height
    rw [hcontents, List.length_cons]
    omega
  above d hd := by
    rw [hscopes, if_neg (by omega)]
    exact h.above d (by omega)
  level m inner hm k hk := by
    rw [hcontents] at hm
    rw [hdepth, hscopes] at hk
    cases m with
    | zero =>
      cases hm
      rw [if_pos (Nat.sub_zero _)] at hk
      exact .inl (hnames k hk)
    | succ m =>
      rw [if_neg (by omega), Nat.add_sub_add_right] at hk
      rw [hdepth, hhoisted]
      rcases h.level m inner hm k hk with hk | ⟨hm, hk⟩
      · exact .inl hk
      · exact .inr ⟨by omega, hk⟩

/-- The innermost block closed. -/
theorem closeBlock (h : ScopesAgree s) (hn : s.IsNested .cpp) :
    ScopesAgree (s.closeBlock .cpp) := by
  cases hb : s.blocks with
  | nil =>
    rwa [closeBlock_nil .cpp hb]
  | cons block rest =>
    have hnested : s.depth = block.depth + 1 ∧
        block.depth = Backend.cpp.baseDepth + rest.length := by
      unfold IsNested at hn
      rw [hb] at hn
      exact ⟨hn.1, nested_length hn.2⟩
    obtain ⟨hdepth, hblock⟩ := hnested
    have hheight := h.height
    have hcontents := scopesAfter_closeBlock hb
    have hclosed : (s.closeBlock .cpp).depth = block.depth ∧
        (s.closeBlock .cpp).scopes = s.scopes.upTo block.depth ∧
        (s.closeBlock .cpp).naming.hoisted = s.naming.hoisted := by
      rw [closeBlock_cpp hb]
      exact ⟨rfl, rfl, rfl⟩
    obtain ⟨hdepth', hscopes, hhoisted⟩ := hclosed
    constructor
    · omega
    · rw [hcontents, List.length_tail]
      omega
    · intro d hd
      rw [hscopes, ScopeMap.names_upTo, if_neg (by omega)]
    · intro m inner hm n hn
      rw [hcontents, List.getElem?_tail] at hm
      rw [hscopes, hdepth', ScopeMap.names_upTo, if_pos (Nat.sub_le _ _)] at hn
      rw [hhoisted, hdepth']
      have hlevel : s.depth - (m + 1) = block.depth - m := by omega
      rcases h.level (m + 1) inner hm n (by rwa [hlevel]) with hn | ⟨hm, hn⟩
      · exact .inl hn
      · exact .inr ⟨by omega, hn⟩

end ScopesAgree
end EmissionState

namespace Emission
open EmissionState Content

variable {s s' t : EmissionState} {i : Instruction} {upcoming : Option Instruction}

theorem scopesAgree_noteReads {operands : List Operand} (h : noteReads .cpp s operands = .ok t)
    (hs : ScopesAgree s) : ScopesAgree t := by
  rw [noteReads_eq h]
  clear h
  generalize operands.filterMap Operand.name? = names
  induction names generalizing s with
  | nil => exact hs
  | cons n names ih => exact ih (hs.noteUse n _)

theorem Enters.isNested {b : Backend} (h : Enters s s') (hs : s.IsNested b) : s'.IsNested b := by
  cases h with
  | nothing => exact hs
  | @function header =>
    exact IsNested.openBlock (s := { s with header := none }) hs .function header.name _

theorem Enters.scopesAgree (h : Enters s s') (hs : ScopesAgree s) : ScopesAgree s' := by
  cases h with
  | nothing => exact hs
  | @function header =>
    refine hs.push _ (header.params.map Name.ofOption) rfl (fun d => ScopeMap.names_setNames)
      (fun n hn => ?_) rfl ?_
    · simpa using Name.mem_foldl_addTo hn
    · simp [contents, EmissionState.openBlock, EmissionState.writeStatement, EmissionState.write,
        scope]

theorem Performs.scopesAgree (h : Performs .cpp upcoming s i s') (hn : s.IsNested .cpp)
    (hs : ScopesAgree s) : ScopesAgree s' := by
  cases h with
  | declareUntyped hb => cases hb
  | declareTyped =>
    refine hs.declare rfl rfl rfl ?_
    rw [contents_writeStatement, scopesAfter_append]
    rfl
  | mov _ _ hreads | binary _ _ hreads =>
    exact ((scopesAgree_noteReads hreads hs).noteUse _ _).writeStatement rfl
  | cmp _ _ hreads => exact (scopesAgree_noteReads hreads hs).congr rfl rfl rfl rfl
  | ret _ hreads => exact (scopesAgree_noteReads hreads hs).writeStatement rfl
  | branch =>
    refine hs.push [] [] rfl (fun d => ?_) (by simp) rfl ?_
    · split
      · rename_i hd
        exact hs.above d (by omega)
      · rfl
    · rw [contents_openBlock, scopesAfter_append]
      rfl
  | jump =>
    exact (hs.congr rfl rfl rfl rfl : ScopesAgree (awaitLabel s i.label)).write rfl
  | jumpClosing =>
    have hawait : ScopesAgree (awaitLabel s i.label) := hs.congr rfl rfl rfl rfl
    exact (hawait.write rfl).closeBlock hn
  | label =>
    exact (hs.congr rfl rfl rfl rfl : ScopesAgree (meetLabel s i.label)).write rfl
  | labelClosing =>
    have hmeet : ScopesAgree (meetLabel (s.closeBlock .cpp) i.label) :=
      (hs.closeBlock hn).congr rfl rfl rfl rfl
    exact hmeet.write rfl
  | endFunc => exact hs.closeBlock hn
  | declareAgain | func | param => exact hs.congr rfl rfl rfl rfl

/-- Every instruction keeps the scope map in agreement with the text. -/
theorem scopesAgree_step (h : step .cpp upcoming s i = .ok s') (hn : s.IsNested .cpp)
    (hs : ScopesAgree s) : ScopesAgree s' := by
  obtain ⟨t, u, henter, -, hperforms, rfl⟩ := step_cases h
  obtain ⟨htn, hts⟩ : t.IsNested .cpp ∧ ScopesAgree t := by
    rcases henter with ⟨-, rfl⟩ | ⟨-, henters⟩
    · exact ⟨hn, hs⟩
    · exact ⟨henters.isNested hn, henters.scopesAgree hs⟩
  exact (hperforms.scopesAgree htn hts).congr rfl rfl rfl rfl

end Emission
end Sil
