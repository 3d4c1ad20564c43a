import Mathlib
import Sil.Proofs.LoweredCode

/-!
Lowered code on the control machine. From a point where nothing is pending, the code of a phrase
opens and closes its own blocks and leaves the machine as it was, except that its labels are met.
What carries the induction is that the labels which a phrase will allocate are unknown to the
machine before it.
-/
namespace Sil.Lowering
open Counters Control

/-- The control part between two statements: no operand waits and no function is being opened. -/
def idle (blocks : List (BlockKind × Option String)) (defined awaited : List (Option String)) :
    Control :=
  { blocks, defined, awaited }

@[simp] theorem idle_enter (bs : List (BlockKind × Option String)) (ds as : List (Option String)) :
    (idle bs ds as).enter = idle bs ds as := rfl

/-- Moves along some code, whatever follows it. -/
def Passes (c : Control) (code : List Instruction) (c' : Control) : Prop :=
  ∀ rest, Trace rest c code c'

theorem Passes.nil (c : Control) : Passes c [] c := fun _ => .nil c

theorem Passes.to {c c₁ c₂ : Control} {code : List Instruction} (h : Passes c code c₁)
    (hc : c₁ = c₂) : Passes c code c₂ := hc ▸ h

theorem Passes.append {c c₁ c₂ : Control} {xs ys : List Instruction} (hx : Passes c xs c₁)
    (hy : Passes c₁ ys c₂) : Passes c (xs ++ ys) c₂ :=
  fun rest => (hx (ys ++ rest)).append (hy rest)

theorem Passes.cons {c c₁ c₂ : Control} {i : Instruction} {is : List Instruction}
    (hi : ∀ upcoming, Moves upcoming c i c₁) (his : Passes c₁ is c₂) : Passes c (i :: is) c₂ :=
  fun rest => .cons (hi _) (his rest)

variable {bs : List (BlockKind × Option String)} {ds as : List (Option String)}

theorem passes_plain {i : Instruction} {rest : List Instruction} {c' : Control}
    (ho : i.opcode = .decl ∨ i.opcode = .mov ∨ (∃ op, i.opcode = .binary op) ∨ i.opcode = .ret)
    (h : Passes (idle bs ds as) rest c') : Passes (idle bs ds as) (i :: rest) c' :=
  .cons (fun _ => .plain ho rfl) h

theorem passes_mov (dest : String) (source : Operand) (loc : Location) :
    Passes (idle bs ds as) [.mov dest source loc]
      (idle bs (ds ++ marks [.mov dest source loc]) as) := by
  have hplain : Passes (idle bs ds as) [.mov dest source loc] (idle bs ds as) :=
    passes_plain (.inr (.inl rfl)) (.nil _)
  simpa using hplain

/-- A label that the machine has not heard of: not met, not waited for, closing no open block. -/
structure Absent (label : String) (bs : List (BlockKind × Option String))
    (ds as : List (Option String)) : Prop where
  defined : some label ∉ ds
  awaited : some label ∉ as
  blocks : (.branch, some label) ∉ bs

theorem await_fresh {label : String} (hd : some label ∉ ds) (ha : some label ∉ as)
    (bs : List (BlockKind × Option String)) :
    (idle bs ds as).await (some label) = idle bs ds (as ++ [some label]) := by
  simp [idle, await, hd, ha]

theorem await_defined {label : String} (hd : some label ∈ ds)
    (bs : List (BlockKind × Option String)) :
    (idle bs ds as).await (some label) = idle bs ds as := by
  simp [idle, await, hd]

/-- A test and its jump open a block and wait for the label. -/
theorem passes_test (skip : Instruction) {label : String} (v : Operand) (loc : Location)
    (hskip : skip.opcode.isConditionalJump) (hlabel : skip.label = some label)
    (hl : Absent label bs ds as) :
    Passes (idle bs ds as) [.cmp v loc, skip]
      (idle ((.branch, some label) :: bs) ds (as ++ [some label])) := by
  intro rest
  have hcmp : Moves (([skip] ++ rest).head?) (idle bs ds as) (.cmp v loc)
      { idle bs ds as with tested := some v } := .cmp rfl rfl
  have hd' : skip.label ∉ { idle bs ds as with tested := some v }.defined := hlabel ▸ hl.defined
  refine .cons hcmp (.cons ?_ (.nil _))
  convert Moves.branch hskip rfl hd' using 1
  simp [idle, enter, await, hlabel, hl.defined, hl.awaited]

/-- A label that no block waits for is met. -/
theorem passes_mark {label : String} (hd : some label ∉ ds) (hb : (.branch, some label) ∉ bs) :
    Passes (idle bs ds as) [.mark label]
      (idle bs (ds ++ [some label]) (as.filter (· != some label))) :=
  .cons (fun _ => .label rfl rfl hd hb) (.nil _)

/-- The label of the innermost block closes it. -/
theorem passes_close {label : String} (hd : some label ∉ ds) :
    Passes (idle ((.branch, some label) :: bs) ds as) [.mark label]
      (idle bs (ds ++ [some label]) (as.filter (· != some label))) :=
  .cons (fun _ => .labelClosing rfl rfl hd rfl) (.nil _)

/-- A jump right before the label of the innermost block closes it. -/
theorem passes_leave {target label : String} {as' : List (Option String)} (loc : Location)
    (ha : ∀ bs, (idle bs ds as).await (some target) = idle bs ds as') (hd : some label ∉ ds)
    (hb : (.branch, some label) ∉ bs) :
    Passes (idle ((.branch, some label) :: bs) ds as) [.jump target loc, .mark label]
      (idle bs (ds ++ [some label]) (as'.filter (· != some label))) := by
  intro rest
  have hjump : Moves (some (.mark label)) (idle ((.branch, some label) :: bs) ds as)
      (.jump target loc) (idle ((.branch, some label) :: bs) ds as').close := by
    have hclose : (idle ((.branch, some label) :: bs) ds as).enter.closesBefore
        (some (.mark label)) = true := by
      rw [idle_enter]
      simp [closesBefore, closes, idle]
    rw [← ha]
    exact .jumpClosing rfl rfl hclose
  exact .cons hjump (passes_mark hd hb rest)

theorem Absent.meet {m n : Nat} (h : Absent (labelName n) bs ds as) (hne : n ≠ m) :
    Absent (labelName n) bs (ds ++ [some (labelName m)]) as where
  defined := by simp [h.defined, hne]
  awaited := h.awaited
  blocks := h.blocks

/-- The machine has not heard of the labels from a number on, and outside of functions every open
block is a branch. -/
structure Unused (inFunction : Bool) (next : Nat) (bs : List (BlockKind × Option String))
    (ds as : List (Option String)) : Prop where
  branches : inFunction = false → ∀ b ∈ bs, b.1 = .branch
  absent : ∀ n, next ≤ n → Absent (labelName n) bs ds as

namespace Unused

variable {f : Bool} {k k' m : Nat}

theorem mono (h : Unused f k bs ds as) (hk : k ≤ k') : Unused f k' bs ds as where
  branches := h.branches
  absent n hn := h.absent n (hk.trans hn)

theorem meet (h : Unused f k bs ds as) (hm : m < k) :
    Unused f k bs (ds ++ [some (labelName m)]) as where
  branches := h.branches
  absent n hn := (h.absent n hn).meet (by omega)

theorem await (h : Unused f k bs ds as) (hm : m < k) :
    Unused f k bs ds (as ++ [some (labelName m)]) where
  branches := h.branches
  absent n hn := by
    have hne : n ≠ m := by omega
    have hn := h.absent n hn
    exact ⟨hn.defined, by simp [hn.awaited, hne], hn.blocks⟩

/-- The state inside of a block that waits for an earlier label. -/
theorem inside (h : Unused f k bs ds as) (hm : m < k) :
    Unused f k ((.branch, some (labelName m)) :: bs) ds (as ++ [some (labelName m)]) where
  branches hf b hb := by
    obtain rfl | hb := List.mem_cons.mp hb
    · rfl
    · exact h.branches hf b hb
  absent n hn := by
    have hne : n ≠ m := by omega
    have hn := h.absent n hn
    exact ⟨hn.defined, by simp [hn.awaited, hne], by simp [hn.blocks, hne]⟩

end Unused

theorem Lowers.not_mem_marks {s : Segment} (hs : Lowers s) {n : Nat}
    (hn : n < s.before.labels ∨ s.after.labels ≤ n) : some (labelName n) ∉ marks s.code := by
  rw [mem_marks hs]
  rintro ⟨m, hle, hlt, heq⟩
  have hnm : n = m := by simpa using heq
  omega

/-- A label that is allocated elsewhere stays absent when the labels of a phrase are met. -/
theorem Absent.after {n : Nat} (h : Absent (labelName n) bs ds as) {s : Segment} (hs : Lowers s)
    (hn : n < s.before.labels ∨ s.after.labels ≤ n) :
    Absent (labelName n) bs (ds ++ marks s.code) as where
  defined := by simp [h.defined, hs.not_mem_marks hn]
  awaited := h.awaited
  blocks := h.blocks

/-- After a phrase its labels are known and the next ones are not. -/
theorem Lowers.unused {f : Bool} {s : Segment} (hs : Lowers s)
    (h : Unused f s.before.labels bs ds as) :
    Unused f s.after.labels bs (ds ++ marks s.code) as where
  branches := h.branches
  absent n hn := (h.absent n ((counters_le hs).2.trans hn)).after hs (.inr hn)

theorem filter_fresh {label : Option String} (h : label ∉ as) : as.filter (· != label) = as := by
  rw [List.filter_eq_self]
  intro a ha
  simp only [bne_iff_ne]
  rintro rfl
  exact h ha

/-- A label that is waited for last is forgotten when it is met. -/
theorem filter_awaited {label : Option String} (h : label ∉ as) :
    (as ++ [label]).filter (· != label) = as := by
  simp [filter_fresh h]

/-- A label that nothing waits for is met. -/
theorem passes_start {label : String} (hl : Absent label bs ds as) :
    Passes (idle bs ds as) [.mark label] (idle bs (ds ++ [some label]) as) := by
  have hmark : Passes (idle bs ds as) [.mark label]
      (idle bs (ds ++ [some label]) (as.filter (· != some label))) :=
    passes_mark hl.defined hl.blocks
  rwa [filter_fresh hl.awaited] at hmark

/-- A jump back before a label that closes no block. -/
theorem passes_repeat (target : String) {label : String} (loc : Location) (ht : some target ∈ ds)
    (hl : Absent label bs ds as) :
    Passes (idle bs ds as) [.jump target loc, .mark label] (idle bs (ds ++ [some label]) as) := by
  intro rest
  have hjump : Moves (some (.mark label)) (idle bs ds as) (.jump target loc) (idle bs ds as) := by
    have hclose : (idle bs ds as).enter.closesBefore (some (.mark label)) = false := by
      have hhead : bs.head? ≠ some (.branch, some label) :=
        fun h => hl.blocks (List.mem_of_head? h)
      rw [idle_enter]
      simpa [closesBefore, closes, idle] using hhead
    have hmove := Moves.jump (i := .jump target loc) rfl rfl hclose
    rwa [idle_enter, Instruction.jump_label, await_defined ht] at hmove
  exact .cons hjump (passes_start hl rest)

/-- Code under a test, closed by the label of its jump. -/
theorem passes_guarded (skip : Instruction) {label : String} {code : List Instruction}
    {ds' : List (Option String)} (v : Operand) (loc : Location)
    (hskip : skip.opcode.isConditionalJump) (hlabel : skip.label = some label)
    (hl : Absent label bs ds as) (hd' : some label ∉ ds')
    (h : Passes (idle ((.branch, some label) :: bs) ds (as ++ [some label])) code
      (idle ((.branch, some label) :: bs) ds' (as ++ [some label]))) :
    Passes (idle bs ds as) (.cmp v loc :: skip :: (code ++ [.mark label]))
      (idle bs (ds' ++ [some label]) as) := by
  have hend := h.append (passes_close hd')
  rw [filter_awaited hl.awaited] at hend
  exact (passes_test skip v loc hskip hlabel hl).append hend

/-- Code under a test that ends with a jump back to a known label. -/
theorem passes_repeated (skip : Instruction) (start : String) {label : String}
    {code : List Instruction} {ds' : List (Option String)} (v : Operand) (loc : Location)
    (hskip : skip.opcode.isConditionalJump) (hlabel : skip.label = some label)
    (hl : Absent label bs ds as) (hd' : some label ∉ ds') (hstart : some start ∈ ds')
    (h : Passes (idle ((.branch, some label) :: bs) ds (as ++ [some label])) code
      (idle ((.branch, some label) :: bs) ds' (as ++ [some label]))) :
    Passes (idle bs ds as) (.cmp v loc :: skip :: (code ++ [.jump start loc, .mark label]))
      (idle bs (ds' ++ [some label]) as) := by
  have hend := h.append (passes_leave loc (await_defined hstart) hd' hl.blocks)
  rw [filter_awaited hl.awaited] at hend
  exact (passes_test skip v loc hskip hlabel hl).append hend

/-- Two pieces of code of which a test chooses one. The first leaves to the label behind the
second. -/
theorem passes_either (skip : Instruction) {label done : String} {code other : List Instruction}
    {ds₁ ds₂ : List (Option String)} (v : Operand) (loc : Location)
    (hskip : skip.opcode.isConditionalJump) (hlabel : skip.label = some label)
    (hne : label ≠ done) (hl : Absent label bs ds as) (hl₁ : some label ∉ ds₁)
    (hdone : Absent done bs ds₁ as) (hdone₂ : some done ∉ ds₂)
    (h : Passes (idle ((.branch, some label) :: bs) ds (as ++ [some label])) code
      (idle ((.branch, some label) :: bs) ds₁ (as ++ [some label])))
    (hother : Passes (idle bs (ds₁ ++ [some label]) (as ++ [some done])) other
      (idle bs ds₂ (as ++ [some done]))) :
    Passes (idle bs ds as)
      (.cmp v loc :: skip :: (code ++ .jump done loc :: .mark label :: (other ++ [.mark done])))
      (idle bs (ds₂ ++ [some done]) as) := by
  have hawait : some done ∉ as ++ [some label] := by simp [hdone.awaited, hne.symm]
  have hleave := h.append (passes_leave loc (await_fresh hdone.defined hawait) hl₁ hl.blocks)
  have hfilter : (as ++ [some label] ++ [some done]).filter (· != some label) =
      as ++ [some done] := by
    simp [filter_fresh hl.awaited, hne.symm]
  rw [hfilter] at hleave
  have hend := hother.append (passes_mark hdone₂ hdone.blocks)
  rw [filter_awaited hdone.awaited] at hend
  have hall := (passes_test skip v loc hskip hlabel hl).append (hleave.append hend)
  simpa using hall

/-- What the code of a phrase does from every state that has not heard of its labels: it leaves the
blocks as they were and meets its labels. -/
def Transparent (f : Bool) (next : Nat) (code : List Instruction) : Prop :=
  ∀ ⦃bs ds as⦄, Unused f next bs ds as → Passes (idle bs ds as) code (idle bs (ds ++ marks code) as)

theorem Transparent.append {f : Bool} {s : Segment} {code : List Instruction} (hs : Lowers s)
    (h : Transparent f s.before.labels s.code) (hc : Transparent f s.after.labels code) :
    Transparent f s.before.labels (s.code ++ code) := by
  intro bs ds as hu
  have hboth := (h hu).append (hc (hs.unused hu))
  simpa using hboth

/-- A loop with a test around code that meets neither of its labels. -/
theorem passes_loop {f : Bool} {n : Nat} {test : Segment} {code : List Instruction}
    (tested : Operand) (loc : Location) (hu : Unused f n bs ds as) (htest : Lowers test)
    (hn : test.before.labels = n + 2) (ht : Transparent f (n + 2) test.code)
    (hc : Transparent f test.after.labels code) (hdone : some (labelName (n + 1)) ∉ marks code) :
    Passes (idle bs ds as)
      (.mark (labelName n) :: (test.code ++ .cmp tested loc ::
        .jumpIfFalse (labelName (n + 1)) loc ::
          (code ++ [.jump (labelName n) loc, .mark (labelName (n + 1))])))
      (idle bs (ds ++ [some (labelName n)] ++ marks test.code ++ marks code ++
        [some (labelName (n + 1))]) as) := by
  have hle : test.before.labels ≤ test.after.labels := (counters_le htest).2
  have hstart := hu.absent n le_rfl
  have hmark := passes_start hstart
  have hu₁ : Unused f (n + 2) bs (ds ++ [some (labelName n)]) as :=
    (hu.mono (by omega)).meet (by omega)
  have hend := ((hu.absent (n + 1) (by omega)).meet (m := n) (by omega)).after htest
    (.inl (by omega))
  have hin := (htest.unused (hn ▸ hu₁)).inside (m := n + 1) (by omega)
  have hend₁ : some (labelName (n + 1)) ∉
      ds ++ [some (labelName n)] ++ marks test.code ++ marks code := by
    simp only [List.mem_append, not_or]
    exact ⟨by simpa using hend.defined, hdone⟩
  have hrepeat := passes_repeated (.jumpIfFalse (labelName (n + 1)) loc) (labelName n)
    tested loc rfl rfl hend hend₁ (by simp) (hc hin)
  exact hmark.append ((ht hu₁).append hrepeat)

/-- A loop without a test around code that meets neither of its labels. -/
theorem passes_endless {f : Bool} {n : Nat} {code : List Instruction} (loc : Location)
    (hu : Unused f n bs ds as) (hc : Transparent f (n + 2) code)
    (hdone : some (labelName (n + 1)) ∉ marks code) :
    Passes (idle bs ds as)
      (.mark (labelName n) :: (code ++ [.jump (labelName n) loc, .mark (labelName (n + 1))]))
      (idle bs (ds ++ [some (labelName n)] ++ marks code ++ [some (labelName (n + 1))]) as) := by
  have hu₁ : Unused f (n + 2) bs (ds ++ [some (labelName n)]) as :=
    (hu.mono (by omega)).meet (by omega)
  have hend := (hu.absent (n + 1) (by omega)).meet (m := n) (by omega)
  have hend₁ : Absent (labelName (n + 1)) bs (ds ++ [some (labelName n)] ++ marks code) as := by
    refine ⟨?_, hend.awaited, hend.blocks⟩
    rw [List.mem_append, not_or]
    exact ⟨hend.defined, hdone⟩
  have hrepeat := passes_repeat (labelName n) loc (by simp) hend₁
  exact (passes_start (hu.absent n le_rfl)).append ((hc hu₁).append hrepeat)

/-- Two pieces of code of which a test chooses one, with two new labels that neither of them
meets. -/
theorem passes_choice {f : Bool} {n : Nat} {code other : List Instruction} (skip : Instruction)
    (v : Operand) (loc : Location) (hskip : skip.opcode.isConditionalJump)
    (hlabel : skip.label = some (labelName n)) (hu : Unused f n bs ds as)
    (hcode : Transparent f (n + 2) code) (hmarks : ∀ k < n + 2, some (labelName k) ∉ marks code)
    (hother : Passes
      (idle bs (ds ++ marks code ++ [some (labelName n)]) (as ++ [some (labelName (n + 1))])) other
      (idle bs (ds ++ marks code ++ [some (labelName n)] ++ marks other)
        (as ++ [some (labelName (n + 1))])))
    (hdone : some (labelName (n + 1)) ∉ marks other) :
    Passes (idle bs ds as)
      (.cmp v loc :: skip :: (code ++ .jump (labelName (n + 1)) loc :: .mark (labelName n) ::
        (other ++ [.mark (labelName (n + 1))])))
      (idle bs (ds ++ marks code ++ [some (labelName n)] ++ marks other ++
        [some (labelName (n + 1))]) as) := by
  have hin : Unused f (n + 2) ((.branch, some (labelName n)) :: bs) ds
      (as ++ [some (labelName n)]) :=
    (hu.mono (by omega)).inside (by omega)
  have hshort := hu.absent n le_rfl
  have hlast := hu.absent (n + 1) (by omega)
  have hshort₁ : some (labelName n) ∉ ds ++ marks code := by
    rw [List.mem_append, not_or]
    exact ⟨hshort.defined, hmarks n (by omega)⟩
  have hlast₁ : Absent (labelName (n + 1)) bs (ds ++ marks code) as := by
    refine ⟨?_, hlast.awaited, hlast.blocks⟩
    rw [List.mem_append, not_or]
    exact ⟨hlast.defined, hmarks (n + 1) (by omega)⟩
  have hlast₂ : some (labelName (n + 1)) ∉
      ds ++ marks code ++ [some (labelName n)] ++ marks other := by
    rw [List.mem_append, not_or]
    exact ⟨(hlast₁.meet (by omega)).defined, hdone⟩
  exact passes_either skip v loc hskip hlabel (by simp) hshort hshort₁ hlast₁ hlast₂
    (hcode hin) hother

def StartsPlain (code : List Instruction) : Prop :=
  ∀ i, code.head? = some i → i.opcode ≠ .param

@[simp] theorem startsPlain_nil : StartsPlain [] := by
  simp [StartsPlain]

@[simp] theorem startsPlain_cons {i : Instruction} {is : List Instruction} :
    StartsPlain (i :: is) ↔ i.opcode ≠ .param := by
  simp [StartsPlain]

@[simp] theorem startsPlain_append {xs ys : List Instruction} :
    StartsPlain (xs ++ ys) ↔ StartsPlain xs ∧ (xs = [] → StartsPlain ys) := by
  cases xs <;> simp

theorem lowers_startsPlain {s : Segment} (h : Lowers s) : StartsPlain s.code := by
  induction h with
  | intro rule parts ih =>
    replace ih := eachPart_iff.mpr ih
    cases rule with
    | function h => simp
    | _ =>
      simp only [EachPart] at ih
      simp [ih]

private theorem moves_of_enter {upcoming : Option Instruction} {c c' : Control} {i : Instruction}
    (hi : i.opcode ≠ .param) (h : Moves upcoming c.enter i c') : Moves upcoming c i c' := by
  cases h with
  | plain ho ht =>
    rw [enter_tested] at ht
    rw [enter_enter]
    exact .plain ho ht
  | cmp ho ht =>
    rw [enter_tested] at ht
    rw [enter_enter]
    exact .cmp ho ht
  | branch ho ht hd =>
    rw [enter_tested] at ht
    rw [enter_defined] at hd
    rw [enter_enter]
    exact .branch ho ht hd
  | jump ho ht hb =>
    rw [enter_tested] at ht
    rw [enter_enter] at hb ⊢
    exact .jump ho ht hb
  | jumpClosing ho ht hb =>
    rw [enter_tested] at ht
    rw [enter_enter] at hb ⊢
    exact .jumpClosing ho ht hb
  | label ho ht hd hb =>
    rw [enter_tested] at ht
    rw [enter_defined] at hd
    rw [enter_enter] at hb ⊢
    exact .label ho ht hd hb
  | labelClosing ho ht hd hb =>
    rw [enter_tested] at ht
    rw [enter_defined] at hd
    rw [enter_enter] at hb ⊢
    exact .labelClosing ho ht hd hb
  | func ho ht hb =>
    rw [enter_tested] at ht
    rw [enter_enter] at hb ⊢
    exact .func ho ht hb
  | param ho => exact absurd ho hi
  | endFunc ho ht hb =>
    rw [enter_tested] at ht
    rw [enter_enter] at hb ⊢
    exact .endFunc ho ht hb

/-- A pending function is opened by whatever is no parameter. -/
theorem passes_of_enter {c c' : Control} {i : Instruction} {is : List Instruction}
    (hi : i.opcode ≠ .param) (h : Passes c.enter (i :: is) c') : Passes c (i :: is) c' := by
  intro rest
  cases h rest with
  | cons move trace => exact .cons (moves_of_enter hi move) trace

/-- Parameters are added to the pending function. -/
theorem passes_params {params : List Instruction} (hp : ∀ i ∈ params, i.opcode = .param)
    (c : Control) (ht : c.tested = none) (header : Header) :
    ∃ names, Passes { c with header := some header } params
      { c with header := some { header with params := names } } := by
  induction params generalizing header with
  | nil => exact ⟨header.params, .nil _⟩
  | cons p rest ih =>
    have hfirst : p.opcode = .param := hp p List.mem_cons_self
    obtain ⟨names, hrest⟩ := ih (fun i hi => hp i (List.mem_cons_of_mem p hi))
      { header with params := header.params ++ [p.name] }
    exact ⟨names, .cons (fun _ => .param hfirst ht rfl) hrest⟩

/-- A function around code that leaves the blocks as they were. -/
theorem passes_function {name : String} {params code : List Instruction}
    {ds' : List (Option String)} (loc : Location) (hp : ∀ i ∈ params, i.opcode = .param)
    (hcode : StartsPlain code) (hb : ∀ b ∈ bs, b.1 = .branch)
    (h : Passes (idle ((.function, some name) :: bs) ds as) code
      (idle ((.function, some name) :: bs) ds' as)) :
    Passes (idle bs ds as) (.func name loc :: (params ++ (code ++ [.endFunc loc])))
      (idle bs ds' as) := by
  obtain ⟨names, hparams⟩ := passes_params hp (idle bs ds as) rfl { name := some name }
  have hend : Passes (idle ((.function, some name) :: bs) ds as) (code ++ [.endFunc loc])
      (idle bs ds' as) := h.append (.cons (fun _ => .endFunc rfl rfl rfl) (.nil _))
  refine .cons (fun _ => .func rfl rfl hb) (hparams.append ?_)
  cases code with
  | nil => exact passes_of_enter (by simp) hend
  | cons i is => exact passes_of_enter (startsPlain_cons.mp hcode) hend

/-- The code of a phrase leaves the control part as it was and meets the labels of the phrase. -/
theorem lowers_transparent {s : Segment} (h : Lowers s) :
    Transparent s.inFunction s.before.labels s.code := by
  induction h with
  | @intro f c c' p pieces rule parts ih =>
    replace ih := eachPart_iff.mpr ih
    replace parts := eachPart_iff.mpr parts
    intro bs ds as hu
    cases rule with
    | literal | identifier | nil | noUpdate => simpa using Passes.nil (idle bs ds as)
    | binary =>
      obtain ⟨hl, hr, -⟩ := ih
      obtain ⟨left, -⟩ := parts
      refine ((hl hu).append ((hr (left.unused hu)).append (passes_plain ?_ (.nil _)))).to ?_
      · simp
      · simp
    | @logical _ _ c₁ c₂ loc operator skip left right lhs rhs leftCode rightCode h =>
      obtain ⟨hl, hr, -⟩ := ih
      obtain ⟨left, right, -⟩ := parts
      have hskip : (skip (labelName c₁.labels) (loc.getD .unknown)).opcode.isConditionalJump ∧
          (skip (labelName c₁.labels) (loc.getD .unknown)).label = some (labelName c₁.labels) := by
        obtain ⟨-, rfl⟩ | ⟨-, rfl⟩ := shortCut?_eq_some.mp h <;> exact ⟨rfl, rfl⟩
      have hright : Transparent f (c₁.labels + 2)
          (rightCode ++ [.mov (tempName c₁.temps) rhs (loc.getD .unknown)]) :=
        Transparent.append right hr fun _ _ _ _ => passes_mov _ _ _
      have hchoice := passes_choice _ lhs (loc.getD .unknown) hskip.1 hskip.2
          (left.unused hu) hright
        (fun k hk => by simpa using right.not_mem_marks (n := k) (.inl hk))
        (passes_mov (tempName c₁.temps) lhs (loc.getD .unknown)) (by simp)
      have hall := (hl hu).append hchoice
      obtain ⟨-, rfl⟩ | ⟨-, rfl⟩ := shortCut?_eq_some.mp h <;> simpa using hall
    | assignment | retValue =>
      obtain ⟨hv, -⟩ := ih
      refine ((hv hu).append (passes_plain ?_ (.nil _))).to ?_
      · simp
      · simp
    | program | block | declaration | expression | bare | someUpdate =>
      obtain ⟨hp, -⟩ := ih
      simpa using hp hu
    | declare | ret =>
      refine (passes_plain ?_ (.nil _)).to ?_
      · simp
      · simp
    | initialise =>
      obtain ⟨hv, -⟩ := ih
      refine (passes_plain ?_ ((hv hu).append (passes_plain ?_ (.nil _)))).to ?_
      · simp
      · simp
      · simp
    | @conditional _ _ c₁ c₂ loc test consequent tested testCode code =>
      obtain ⟨ht, hb, -⟩ := ih
      obtain ⟨test, body, -⟩ := parts
      have hu₁ : Unused f c₁.labels bs (ds ++ marks testCode) as := test.unused hu
      have hin : Unused f (c₁.labels + 1) ((.branch, some (labelName c₁.labels)) :: bs)
          (ds ++ marks testCode) (as ++ [some (labelName c₁.labels)]) :=
        (hu₁.mono (by omega)).inside (by omega)
      have hother := hu₁.absent c₁.labels le_rfl
      have hother₁ := (hother.after body (.inl (by simp))).defined
      have hguarded := passes_guarded (.jumpIfFalse (labelName c₁.labels) (loc.getD .unknown))
        tested (loc.getD .unknown) rfl rfl hother hother₁ (hb hin)
      simpa using (ht hu).append hguarded
    | @alternative _ _ c₁ c₂ c₃ loc test consequent alternate tested testCode code elseCode =>
      obtain ⟨ht, hb, ha, -⟩ := ih
      obtain ⟨test, body, alternate, -⟩ := parts
      have hle : c₁.labels + 2 ≤ c₂.labels := (counters_le body).2
      have hu₁ : Unused f c₁.labels bs (ds ++ marks testCode) as := test.unused hu
      have hu₂ : Unused f c₂.labels bs
          (ds ++ marks testCode ++ marks code ++ [some (labelName c₁.labels)])
          (as ++ [some (labelName (c₁.labels + 1))]) :=
        ((body.unused (hu₁.mono (by simp))).meet (by simp; omega)).await (by simp; omega)
      have hchoice := passes_choice (.jumpIfFalse (labelName c₁.labels) (loc.getD .unknown)) tested
        (loc.getD .unknown) rfl rfl hu₁ hb (fun k hk => body.not_mem_marks (.inl hk)) (ha hu₂)
        (alternate.not_mem_marks (.inl (by simp; omega)))
      simpa using (ht hu).append hchoice
    | @whileLoop _ _ c₁ c₂ loc test body tested testCode code =>
      obtain ⟨ht, hb, -⟩ := ih
      obtain ⟨test, body, -⟩ := parts
      have hle : c.labels + 2 ≤ c₁.labels := (counters_le test).2
      have hloop := passes_loop tested (loc.getD .unknown) hu test rfl ht hb
        (body.not_mem_marks (.inl (by simp; omega)))
      simpa using hloop
    | @forLoop _ _ c₁ c₂ c₃ c₄ loc init test update body tested initCode testCode code updateCode =>
      obtain ⟨hi, ht, hb, hupdate, -⟩ := ih
      obtain ⟨init, test, body, update, -⟩ := parts
      have hle : c₁.labels + 2 ≤ c₂.labels := (counters_le test).2
      have hle' : c₂.labels ≤ c₃.labels := (counters_le body).2
      have hbody : Transparent f c₂.labels (code ++ updateCode) :=
        Transparent.append body hb hupdate
      have hdone : some (labelName (c₁.labels + 1)) ∉ marks (code ++ updateCode) := by
        have hbody := body.not_mem_marks (n := c₁.labels + 1) (.inl (by simp; omega))
        have hupdate := update.not_mem_marks (n := c₁.labels + 1) (.inl (by simp; omega))
        simpa using ⟨hbody, hupdate⟩
      have hloop := passes_loop tested (loc.getD .unknown) (init.unused hu) test rfl ht hbody hdone
      simpa using (hi hu).append hloop
    | @endlessLoop _ _ c₁ c₂ c₃ loc init update body initCode code updateCode =>
      obtain ⟨hi, hb, hupdate, -⟩ := ih
      obtain ⟨init, body, update, -⟩ := parts
      have hle : c₁.labels + 2 ≤ c₂.labels := (counters_le body).2
      have hbody : Transparent f (c₁.labels + 2) (code ++ updateCode) :=
        Transparent.append body hb hupdate
      have hdone : some (labelName (c₁.labels + 1)) ∉ marks (code ++ updateCode) := by
        have hbody := body.not_mem_marks (n := c₁.labels + 1) (.inl (by simp))
        have hupdate := update.not_mem_marks (n := c₁.labels + 1) (.inl (by simp; omega))
        simpa using ⟨hbody, hupdate⟩
      have hloop := passes_endless (loc.getD .unknown) (init.unused hu) hbody hdone
      simpa using (hi hu).append hloop
    | @function _ c₁ loc nameLoc name params body paramCode code h =>
      obtain ⟨hb, -⟩ := (eachPart_own _ _).mp ih
      obtain ⟨body, -⟩ := (eachPart_own _ _).mp parts
      have hparams (i : Instruction) (hi : i ∈ paramCode) : i.opcode = .param := by
        obtain ⟨loc, name, -, rfl⟩ := parameters_eq_ok h i hi
        rfl
      have hin : Unused true c.labels ((.function, some name) :: bs) ds as :=
        ⟨by simp, fun n hn => ⟨(hu.absent n hn).defined, (hu.absent n hn).awaited,
          by simp [(hu.absent n hn).blocks]⟩⟩
      have hfunction := passes_function (loc.getD .unknown) hparams (lowers_startsPlain body)
        (hu.branches rfl) (hb hin)
      simpa [marks_param h] using hfunction
    | cons =>
      obtain ⟨hn, hr, -⟩ := ih
      obtain ⟨first, -⟩ := parts
      simpa using (hn hu).append (hr (first.unused hu))

/-- The moves of the code of a whole tree: in the end every label is met and no block is open. -/
theorem trace_of_lower {limits : Limits} {tree : Node} {code : List Instruction}
    (h : tree.lower limits = .ok code) :
    Trace [] {} code (idle [] (marks code) []) := by
  obtain ⟨c, hs⟩ := lowers_of_lower h
  have hunused : Unused false 0 [] [] [] := by
    constructor
    · simp
    · intro n _
      exact ⟨List.not_mem_nil, List.not_mem_nil, List.not_mem_nil⟩
  exact lowers_transparent hs hunused []

theorem lower_complete {limits : Limits} {tree : Node} {code : List Instruction}
    (h : tree.lower limits = .ok code) :
    ∀ i ∈ code, i.isComplete := by
  obtain ⟨c, hs⟩ := lowers_of_lower h
  exact lowers_complete hs

end Sil.Lowering
