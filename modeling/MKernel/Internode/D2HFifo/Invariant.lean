import MKernel.Internode.D2HFifo.Ring

/-!
# What Every Interleaving of the FIFO Keeps

The invariant of the device-to-host ring, and its preservation by each memory
access of each thread.

Positions are counted without wrapping: slot `j` is the `j`-th claim. The
slots that matter are the window from `cpu_head` on, one lap long, because a
push stores only once its slot lies in that window and the window covers each
cell once. In it a slot is *full* when its push has finished and the host has
not cleared it, and then its cell holds exactly the pushed command; every
other slot of the window, unclaimed, claimed but not committed or just
cleared, shows the type byte `EMPTY`. That is the whole reason the one byte
the host looks at is enough.

The stale cache costs nothing. Every value `tail_cache` ever takes was a value
of `tail` at some moment, hence a lower bound of the present `cpu_head`, and a
test against a lower bound is only ever too strict.

The counters of the code wrap at 64 bits. The invariant is carried as long as
fewer than `2 ^ 64` slots have been claimed, which is when `head` still counts
claims.

## Main definitions

* `Written`: The push that claimed a slot has finished.
* `Full`: A written slot the host has not cleared.
* `PollInv`: What the host knows inside `poll`.
* `Inv`: The invariant of the ring.
* `CacheInv`: What a tail that only advances keeps of its copies.

## Theorems

* `inv_init`: A fresh ring satisfies the invariant.
* `push_inv`, `device_inv`, `host_inv`, `advanceTail_inv`: One access of each
  kind keeps it.
* `inv_of_reaches`: Every interleaving keeps it.
* `cache_le_tail_of_reaches`: A tail that only advances bounds its cache.
-/

namespace MKernel

namespace Internode

namespace D2HFifo

open MKernel.Core

variable {P : Type} {capacity : Capacity} {s : State P}

/-- Slot `j` is claimed and the push that claimed it has stored word 0. -/
def Written (s : State P) (j : Nat) : Prop :=
  j < s.claimed.length ∧ ∀ p c, (s.push p).held ≠ some (j, c)

/-- The host has cleared the type byte of slot `j` and not yet advanced. -/
def Cleared (s : State P) (j : Nat) : Prop :=
  j = s.cpuHead ∧ ∃ out, s.poll = .bump out

/-- Slot `j` holds a published command. -/
def Full (s : State P) (j : Nat) : Prop := Written s j ∧ ¬ Cleared s j

/-- What the host knows inside `poll`: the slot it is at is written, and the
    words it has copied are those of the slot. -/
def PollInv (capacity : Capacity) (s : State P) : Prop :=
  match s.poll with
  | .idle => True
  | .copy wi out => Written s s.cpuHead ∧
      ∀ i : Fin 6, i.val < wi → out i = cell s.triggers capacity.val s.cpuHead i
  | .bump out => Written s s.cpuHead ∧
      ∃ c, s.claimed[s.cpuHead]? = some c ∧ out = c.words

/-- The invariant of the ring. -/
structure Inv (capacity : Capacity) (s : State P) : Prop where
  head_eq : s.head = s.claimed.length
  cpuHead_le : s.cpuHead ≤ s.claimed.length
  polled_eq : s.polled = (s.claimed.take s.cpuHead).map TransferCmd.words
  tail_le : s.tail ≤ s.cpuHead
  cache_le : s.tailCache ≤ s.cpuHead
  nonempty : ∀ c ∈ s.claimed, c.cmdType ≠ .empty
  held : ∀ p j c, (s.push p).held = some (j, c) → s.cpuHead ≤ j ∧ s.claimed[j]? = some c
  held_inj : ∀ p q j c d, (s.push p).held = some (j, c) → (s.push q).held = some (j, d) → p = q
  loaded : ∀ p j c t, s.push p = .refresh j c t → t ≤ s.cpuHead
  admitted : ∀ p j c wi, s.push p = .store j c wi → j < s.cpuHead + capacity.val ∧ 1 ≤ wi ∧
    ∀ i : Fin 6, 1 ≤ i.val → i.val < wi → cell s.triggers capacity.val j i = c.words i
  ready : ∀ j, s.cpuHead ≤ j → Written s j → j < s.cpuHead + capacity.val
  full : ∀ j c, s.cpuHead ≤ j → Full s j → s.claimed[j]? = some c →
    cell s.triggers capacity.val j = c.words
  free : ∀ j, s.cpuHead ≤ j → j < s.cpuHead + capacity.val → ¬ Full s j →
    cmdTypeByte (cell s.triggers capacity.val j) = 0
  poll : PollInv capacity s

theorem inv_init (capacity : Capacity) : Inv capacity (init P) where
  head_eq := rfl
  cpuHead_le := Nat.le_refl _
  polled_eq := rfl
  tail_le := Nat.le_refl _
  cache_le := Nat.le_refl _
  nonempty := by simp [init]
  held := by simp [init, PushPc.held]
  held_inj := by simp [init, PushPc.held]
  loaded := by simp [init]
  admitted := by simp [init]
  ready := by simp [init, Written]
  full := by simp [init]
  free := fun _ _ _ _ => rfl
  poll := trivial

/-- A cell shows a type byte other than `EMPTY` only when its slot is full. -/
theorem Inv.full_of_type (h : Inv capacity s) {j : Nat} (hj : s.cpuHead ≤ j)
    (hj' : j < s.cpuHead + capacity.val)
    (ht : cmdTypeByte (cell s.triggers capacity.val j) ≠ 0) : Full s j := by
  by_contra hc
  exact ht (h.free j hj hj' hc)

/-- A full cell shows the type of its command, which is not `EMPTY`. -/
theorem Inv.type_of_full (h : Inv capacity s) {j : Nat} (hj : s.cpuHead ≤ j) (hf : Full s j) :
    cmdTypeByte (cell s.triggers capacity.val j) ≠ 0 := by
  have hlt : j < s.claimed.length := hf.1.1
  rw [h.full j _ hj hf (List.getElem?_eq_getElem hlt), cmdTypeByte_words, ne_eq,
    CmdType.toByte_eq_zero_iff]
  exact h.nonempty _ (List.getElem_mem hlt)

/-- The position the host stands at is inside the window. -/
theorem Inv.cpuHead_lt (_h : Inv capacity s) : s.cpuHead < s.cpuHead + capacity.val := by
  have := capacity.pos
  omega

section Held

variable {t : State P}

/-- What the host knows inside `poll` stays true as long as the slot it is at
    stays written, with its cell and its command. -/
theorem pollInv_of_kept (hp : PollInv capacity s) (hpoll : t.poll = s.poll)
    (hcpu : t.cpuHead = s.cpuHead)
    (hkept : Written s s.cpuHead → Written t s.cpuHead ∧
      cell t.triggers capacity.val s.cpuHead = cell s.triggers capacity.val s.cpuHead ∧
      t.claimed[s.cpuHead]? = s.claimed[s.cpuHead]?) : PollInv capacity t := by
  unfold PollInv at hp ⊢
  rw [hpoll, hcpu]
  cases hc : s.poll with
  | idle => trivial
  | copy wi out =>
      simp only [hc] at hp ⊢
      rcases hkept hp.1 with ⟨hw, hcell, -⟩
      rw [hcell]
      exact ⟨hw, hp.2⟩
  | bump out =>
      simp only [hc] at hp ⊢
      rcases hkept hp.1 with ⟨hw, -, hget⟩
      rw [hget]
      exact ⟨hw, hp.2⟩

/-- Whether a slot is written depends on the claims and on who holds what. -/
theorem written_congr (hc : t.claimed = s.claimed)
    (hh : ∀ q, (t.push q).held = (s.push q).held) (j : Nat) : Written t j ↔ Written s j := by
  simp only [Written, hc, hh]

theorem held_update [DecidableEq P] {p : P} {pc : PushPc} (h : pc.held = (s.push p).held) (q : P) :
    (Function.update s.push p pc q).held = (s.push q).held := by
  by_cases hq : q = p
  · rw [hq, Function.update_self, h]
  · rw [Function.update_of_ne hq]

end Held

/-- The write `Function.update` performs at a masked index, as a ring write. -/
theorem update_slotIndex (s : State P) (slot : Nat) (f : Slot → Slot) :
    Function.update s.triggers (slotIndex capacity slot) (f (s.triggers (slotIndex capacity slot)))
      = setCell s.triggers capacity.val slot (f (cell s.triggers capacity.val slot)) := by
  rw [slotIndex_eq_mod]
  rfl

theorem cmdTypeByte_copyWord {wi : Nat} (hwi : 1 ≤ wi) (dst src : Slot) :
    cmdTypeByte (copyWord dst src wi) = cmdTypeByte dst := by
  have h0 : ¬ ((0 : Fin 6).val = wi) := by simp only [Fin.val_zero]; omega
  simp only [cmdTypeByte, copyWord, if_neg h0]

theorem cmdTypeByte_clearCmdType (w : Slot) : cmdTypeByte (clearCmdType w) = 0 := by
  have hmask : BitVec.extractLsb' 0 8 0xFFFFFFFFFFFFFF00#64 = 0 := by decide
  simp only [cmdTypeByte, clearCmdType, Fin.val_zero, if_true, BitVec.extractLsb'_and, hmask]
  exact BitVec.and_zero

theorem advanceTail_inv (h : Inv capacity s) {v : Nat} (hv : v ≤ s.cpuHead) :
    Inv capacity { s with tail := v } :=
  { h with tail_le := hv }

/-- The host finds the type byte set: the slot it stands at is full. -/
theorem Inv.of_pollTest (h : Inv capacity s) (hc : s.poll = .idle) (out : Slot)
    (hty : cmdTypeByte (s.triggers (slotIndex capacity s.cpuHead)) ≠ 0) :
    Inv capacity { s with poll := .copy 0 out } := by
  rw [slotIndex_eq_mod] at hty
  have hf : Full s s.cpuHead := h.full_of_type (Nat.le_refl _) h.cpuHead_lt hty
  refine { h with full := ?_, free := ?_, poll := ?_ }
  · intro j c hj hfj
    refine h.full j c hj ⟨hfj.1, ?_⟩
    rintro ⟨_, o, ho⟩
    rw [hc] at ho
    exact absurd ho (by simp only [reduceCtorEq, not_false_eq_true])
  · intro j hj hj' hfj
    refine h.free j hj hj' (fun hcl => hfj ⟨hcl.1, ?_⟩)
    rintro ⟨_, o, ho⟩
    exact absurd ho (by simp only [reduceCtorEq, not_false_eq_true])
  · exact ⟨hf.1, fun i hi => absurd hi (Nat.not_lt_zero _)⟩

/-- The host is copying, so it has cleared nothing. -/
theorem not_cleared_of_copy {wi : Nat} {out : Slot} (hc : s.poll = .copy wi out) (j : Nat) :
    ¬ Cleared s j := by
  rintro ⟨_, o, ho⟩
  rw [hc] at ho
  exact absurd ho (by simp only [reduceCtorEq, not_false_eq_true])

/-- The host copies one more word of the record. -/
theorem Inv.of_pollCopy (h : Inv capacity s) {wi : Nat} {out : Slot}
    (hc : s.poll = .copy wi out) :
    Inv capacity { s with
      poll := .copy (wi + 1) (copyWord out (s.triggers (slotIndex capacity s.cpuHead)) wi) } := by
  have hpi := h.poll
  simp only [PollInv, hc] at hpi
  -- The copy moves no index, and clears nothing.
  refine { h with full := ?_, free := ?_, poll := ?_ }
  · intro j c hj hfj
    exact h.full j c hj ⟨hfj.1, not_cleared_of_copy hc j⟩
  · intro j hj hj' hfj
    refine h.free j hj hj' (fun hcl => hfj ⟨hcl.1, ?_⟩)
    rintro ⟨_, o, ho⟩
    exact absurd ho (by simp only [reduceCtorEq, not_false_eq_true])
  · refine ⟨hpi.1, fun i hi => ?_⟩
    simp only [slotIndex_eq_mod, copyWord]
    -- The word just copied, or one from before.
    by_cases hiw : i.val = wi
    · rw [if_pos hiw]
      rfl
    · rw [if_neg hiw]
      exact hpi.2 i (by omega)

/-- The host clears the type byte: what it copied is the command, and the
    cell now reads as free. -/
theorem Inv.of_pollClear (h : Inv capacity s) {wi : Nat} {out : Slot}
    (hc : s.poll = .copy wi out) (hge6 : ¬ wi < kCmdWords) :
    Inv capacity { s with
      triggers := setCell s.triggers capacity.val s.cpuHead
        (clearCmdType (cell s.triggers capacity.val s.cpuHead))
      poll := .bump out } := by
  have hpi := h.poll
  simp only [PollInv, hc] at hpi
  have hnb := not_cleared_of_copy hc
  have hf : Full s s.cpuHead := ⟨hpi.1, hnb _⟩
  rcases List.getElem?_eq_some_iff.mpr ⟨hpi.1.1, rfl⟩ with hget
  -- All words are copied.
  have hout : out = cell s.triggers capacity.val s.cpuHead := by
    funext i
    exact hpi.2 i (by have := i.isLt; simp only [kCmdWords] at hge6; omega)
  have hother : ∀ j, s.cpuHead ≤ j → j < s.cpuHead + capacity.val → j ≠ s.cpuHead →
      cell (setCell s.triggers capacity.val s.cpuHead
        (clearCmdType (cell s.triggers capacity.val s.cpuHead))) capacity.val j
        = cell s.triggers capacity.val j :=
    fun j hj hj' hne => cell_setCell_window (Nat.le_refl _) h.cpuHead_lt hj hj' hne
  refine { h with admitted := ?_, full := ?_, free := ?_, poll := ?_ }
  · intro q j c wj hq
    rcases h.admitted q j c wj hq with ⟨hj, hwj, hcell⟩
    have hheld : (s.push q).held = some (j, c) := by rw [hq, PushPc.held]
    -- The slot of `cpu_head` is written, so nobody who holds another slot is in this cell.
    have hne : j ≠ s.cpuHead := fun hcj => hpi.1.2 q c (by rw [hheld, hcj])
    refine ⟨hj, hwj, fun i h1 h2 => ?_⟩
    rw [hother j (h.held q j c hheld).1 hj hne]
    exact hcell i h1 h2
  · intro j c hj hfj hcj
    have hne : j ≠ s.cpuHead := fun hcj => hfj.2 ⟨hcj, out, rfl⟩
    rw [hother j hj (h.ready j hj hfj.1) hne]
    exact h.full j c hj ⟨hfj.1, hnb j⟩ hcj
  · intro j hj hj' hfj
    by_cases hne : j = s.cpuHead
    · -- The cell that was cleared is free.
      rw [hne, cell_setCell_self]
      exact cmdTypeByte_clearCmdType _
    · rw [hother j hj hj' hne]
      exact h.free j hj hj' (fun hcl => hfj ⟨hcl.1, fun hcr => hne hcr.1⟩)
  · -- The copy is the command that was claimed for the slot.
    exact ⟨hpi.1, _, hget, hout.trans (h.full _ _ (Nat.le_refl _) hf hget)⟩

/-- The host advances `cpu_head` over the slot it has consumed. -/
theorem Inv.of_pollBump (h : Inv capacity s) {out : Slot} (hc : s.poll = .bump out)
    (hbound : s.claimed.length < 2 ^ 64) :
    Inv capacity { s with
      cpuHead := u64 (s.cpuHead + 1), poll := .idle, polled := s.polled ++ [out] } := by
  have hpi := h.poll
  simp only [PollInv, hc] at hpi
  rcases hpi with ⟨hwr, c, hget, hout⟩
  have hlt : s.cpuHead < s.claimed.length := hwr.1
  have hcpu : u64 (s.cpuHead + 1) = s.cpuHead + 1 := Nat.mod_eq_of_lt (by omega)
  rw [hcpu]
  refine { h with
    cpuHead_le := hlt
    polled_eq := ?_
    tail_le := Nat.le_succ_of_le h.tail_le
    cache_le := Nat.le_succ_of_le h.cache_le
    held := ?_, loaded := ?_, admitted := ?_, ready := ?_, full := ?_, free := ?_
    poll := trivial }
  · simp only []
    rw [h.polled_eq, List.take_add_one, hget, List.map_append, hout]
    rfl
  · intro q j d hq
    have hne : j ≠ s.cpuHead := fun hcj => hwr.2 q d (by rw [hq, hcj])
    have hge := (h.held q j d hq).1
    exact ⟨by simp only []; omega, (h.held q j d hq).2⟩
  · intro q j d u hq
    exact Nat.le_succ_of_le (h.loaded q j d u hq)
  · intro q j d wj hq
    rcases h.admitted q j d wj hq with ⟨hj, hrest⟩
    exact ⟨by simp only []; omega, hrest⟩
  · intro j hj hwj
    simp only [] at hj ⊢
    have := h.ready j (by omega) hwj
    omega
  · intro j d hj hfj hd
    simp only [] at hj
    -- The slot just consumed was the only one the host had cleared.
    exact h.full j d (by omega) ⟨hfj.1, fun hcl => by have := hcl.1; omega⟩ hd
  · intro j hj hj' hfj
    simp only [] at hj hj'
    have hnf : ¬ Written s j := by
      intro hwj
      refine hfj ⟨hwj, ?_⟩
      rintro ⟨_, o, ho⟩
      exact absurd ho (by simp only [reduceCtorEq, not_false_eq_true])
    by_cases hin : j < s.cpuHead + capacity.val
    · exact h.free j (by omega) hin (fun hf => hnf hf.1)
    · -- The position the window gains sits in the cell just cleared.
      have hj2 : j = s.cpuHead + capacity.val := by omega
      rw [hj2, window_shift]
      exact h.free s.cpuHead (Nat.le_refl _) h.cpuHead_lt (fun hf => hf.2 ⟨rfl, out, hc⟩)

/-- One access of the host inside `poll` keeps the invariant. -/
theorem host_inv (h : Inv capacity s) (hbound : s.claimed.length < 2 ^ 64) :
    Inv capacity (hostStep capacity s) := by
  unfold hostStep
  cases hc : s.poll with
  | idle =>
      simp only []
      by_cases hty : cmdTypeByte (s.triggers (slotIndex capacity s.cpuHead)) = 0
      · rw [if_pos hty]
        exact h
      · rw [if_neg hty]
        exact h.of_pollTest hc _ hty
  | copy wi out =>
      simp only []
      by_cases hlt : wi < kCmdWords
      · rw [if_pos hlt]
        exact h.of_pollCopy hc
      · rw [if_neg hlt, update_slotIndex s s.cpuHead clearCmdType]
        exact h.of_pollClear hc hlt
  | bump out => exact h.of_pollBump hc hbound

variable [DecidableEq P]

/-- A step that moves one thread on without releasing its slot, touches no
    cell, and stores at most a bounded value in the cache. -/
theorem Inv.of_thread (h : Inv capacity s) {p : P} {pc : PushPc} {cache : Nat}
    (hheld : pc.held = (s.push p).held) (hcache : cache ≤ s.cpuHead)
    (hload : ∀ j c t, pc = .refresh j c t → t ≤ s.cpuHead)
    (hadm : ∀ j c wi, pc = .store j c wi → j < s.cpuHead + capacity.val ∧ wi = 1) :
    Inv capacity { s with tailCache := cache, push := Function.update s.push p pc } := by
  have hh := held_update hheld
  have hw : ∀ j, Written { s with tailCache := cache, push := Function.update s.push p pc } j
      ↔ Written s j := written_congr rfl hh
  have hfull : ∀ j, Full { s with tailCache := cache, push := Function.update s.push p pc } j
      ↔ Full s j := fun j => and_congr (hw j) Iff.rfl
  refine ⟨h.head_eq, h.cpuHead_le, h.polled_eq, h.tail_le, hcache, h.nonempty, ?_, ?_, ?_, ?_,
    ?_, ?_, ?_, ?_⟩
  · intro q j c hq
    exact h.held q j c ((hh q).symm.trans hq)
  · intro q r j c d hq hr
    exact h.held_inj q r j c d ((hh q).symm.trans hq) ((hh r).symm.trans hr)
  · -- Only the thread itself has loaded something new,
    intro q j c t hq
    by_cases hqp : q = p
    · rw [hqp] at hq
      exact hload j c t (by simpa only [Function.update_self] using hq)
    · exact h.loaded q j c t (by simpa only [Function.update_of_ne hqp] using hq)
  · intro q j c wi hq
    by_cases hqp : q = p
    · -- and only it may have been admitted.
      rw [hqp] at hq
      rcases hadm j c wi (by simpa only [Function.update_self] using hq) with ⟨hj, hwi⟩
      exact ⟨hj, by omega, fun i h1 h2 => by omega⟩
    · exact h.admitted q j c wi (by simpa only [Function.update_of_ne hqp] using hq)
  · intro j hj hwj
    exact h.ready j hj ((hw j).mp hwj)
  · intro j c hj hf hc
    exact h.full j c hj ((hfull j).mp hf) hc
  · intro j hj hj' hf
    exact h.free j hj hj' (fun hc => hf ((hfull j).mpr hc))
  · exact pollInv_of_kept h.poll rfl rfl fun hcur => ⟨(hw _).mpr hcur, rfl, rfl⟩

/-- Storing a payload word: the slot is claimed and not yet committed, so its
    cell is nobody else's and its type byte stays `EMPTY`. -/
theorem Inv.of_store (h : Inv capacity s) {p : P} {slot : Nat} {cmd : TransferCmd} {wi : Nat}
    (hp : s.push p = .store slot cmd wi) :
    Inv capacity { s with
      triggers := setCell s.triggers capacity.val slot
        (copyWord (cell s.triggers capacity.val slot) cmd.words wi)
      push := Function.update s.push p (.store slot cmd (wi + 1)) } := by
  rcases h.admitted p slot cmd wi hp with ⟨hslot, hwi, hwords⟩
  have hheldp : (s.push p).held = some (slot, cmd) := by rw [hp, PushPc.held]
  rcases h.held p slot cmd hheldp with ⟨hge, hget⟩
  have hkept : (PushPc.store slot cmd (wi + 1)).held = (s.push p).held := by rw [hheldp]; rfl
  have hh := held_update (s := s) hkept
  set t : State P := { s with
      triggers := setCell s.triggers capacity.val slot
        (copyWord (cell s.triggers capacity.val slot) cmd.words wi)
      push := Function.update s.push p (.store slot cmd (wi + 1)) } with ht
  have hw : ∀ j, Written t j ↔ Written s j := written_congr rfl hh
  have hfull : ∀ j, Full t j ↔ Full s j := fun j => and_congr (hw j) Iff.rfl
  -- The cell of a slot that is still held is not full.
  have hnot : ¬ Written s slot := fun hc => hc.2 p cmd hheldp
  have hother : ∀ j, s.cpuHead ≤ j → j < s.cpuHead + capacity.val → j ≠ slot →
      cell t.triggers capacity.val j = cell s.triggers capacity.val j :=
    fun j hj hj' hne => cell_setCell_window hge hslot hj hj' hne
  have hself : cell t.triggers capacity.val slot
      = copyWord (cell s.triggers capacity.val slot) cmd.words wi := cell_setCell_self _ _ _ _
  refine ⟨h.head_eq, h.cpuHead_le, h.polled_eq, h.tail_le, h.cache_le, h.nonempty, ?_, ?_, ?_,
    ?_, ?_, ?_, ?_, ?_⟩
  · intro q j c hq
    exact h.held q j c ((hh q).symm.trans hq)
  · intro q r j c d hq hr
    exact h.held_inj q r j c d ((hh q).symm.trans hq) ((hh r).symm.trans hr)
  · intro q j c u hq
    by_cases hqp : q = p
    · rw [hqp] at hq
      simp only [ht, Function.update_self, reduceCtorEq] at hq
    · exact h.loaded q j c u (by simpa only [ht, Function.update_of_ne hqp] using hq)
  · intro q j c wj hq
    by_cases hqp : q = p
    · rw [hqp] at hq
      simp only [ht, Function.update_self, PushPc.store.injEq] at hq
      rcases hq with ⟨rfl, rfl, rfl⟩
      refine ⟨hslot, by omega, fun i h1 h2 => ?_⟩
      rw [hself, copyWord]
      by_cases hi : i.val = wi
      · rw [if_pos hi]
      · rw [if_neg hi]
        exact hwords i h1 (by omega)
    · have hq' : s.push q = .store j c wj := by
        simpa only [ht, Function.update_of_ne hqp] using hq
      rcases h.admitted q j c wj hq' with ⟨hj, hwj, hcell⟩
      have hheldq : (s.push q).held = some (j, c) := by rw [hq', PushPc.held]
      have hne : j ≠ slot := by
        intro hc
        rw [hc] at hheldq
        exact hqp (h.held_inj q p slot c cmd hheldq hheldp)
      refine ⟨hj, hwj, fun i h1 h2 => ?_⟩
      rw [hother j (h.held q j c hheldq).1 hj hne]
      exact hcell i h1 h2
  · intro j hj hwj
    exact h.ready j hj ((hw j).mp hwj)
  · intro j c hj hf hc
    have hf' := (hfull j).mp hf
    have hne : j ≠ slot := fun hc => hnot (hc ▸ hf'.1)
    rw [hother j hj (h.ready j hj hf'.1) hne]
    exact h.full j c hj hf' hc
  · intro j hj hj' hf
    have hf' : ¬ Full s j := fun hc => hf ((hfull j).mpr hc)
    by_cases hne : j = slot
    · rw [hne, hself, cmdTypeByte_copyWord hwi]
      exact h.free slot hge hslot (fun hc => hnot hc.1)
    · rw [hother j hj hj' hne]
      exact h.free j hj hj' hf'
  · -- The slot the host is at is written, so it is not this one.
    refine pollInv_of_kept h.poll rfl rfl fun hcur => ?_
    have hne : s.cpuHead ≠ slot := fun hc => hnot (hc ▸ hcur)
    exact ⟨(hw _).mpr hcur, hother _ (Nat.le_refl _) h.cpuHead_lt hne, rfl⟩

/-- A finished push writes the slot it held and changes no other. -/
theorem written_commit (h : Inv capacity s) {t : State P} {p : P} {slot : Nat}
    {cmd : TransferCmd} (hheld : (s.push p).held = some (slot, cmd))
    (hclaimed : t.claimed = s.claimed) (hpush : t.push = Function.update s.push p .idle)
    (j : Nat) : Written t j ↔ Written s j ∨ j = slot := by
  have hother : ∀ q, q ≠ p → t.push q = s.push q := fun q hq => by
    rw [hpush, Function.update_of_ne hq]
  have hidle : (t.push p).held = none := by rw [hpush, Function.update_self]; rfl
  have hlt : slot < s.claimed.length :=
    (List.getElem?_eq_some_iff.mp (h.held p slot cmd hheld).2).1
  constructor
  · -- A slot that is written now was either written before or is the one of this push.
    rintro ⟨hj, hn⟩
    rw [or_iff_not_imp_right]
    intro hjs
    refine ⟨by rw [← hclaimed]; exact hj, fun q c hq => ?_⟩
    by_cases hqp : q = p
    · rw [hqp, hheld, Option.some.injEq, Prod.mk.injEq] at hq
      exact hjs hq.1.symm
    · exact hn q c (by rw [hother q hqp]; exact hq)
  · intro hj
    -- The slot was claimed, so it is one of those that are counted.
    have hlen : j < t.claimed.length := by
      rw [hclaimed]
      rcases hj with hj | hj
      · exact hj.1
      · rw [hj]; exact hlt
    refine ⟨hlen, fun q c hq => ?_⟩
    by_cases hqp : q = p
    · rw [hqp, hidle] at hq
      exact absurd hq (by simp only [reduceCtorEq, not_false_eq_true])
    · rw [hother q hqp] at hq
      -- No other thread has the slot, because each was given out once.
      rcases hj with hj | hj
      · exact hj.2 q c hq
      · exact hqp (h.held_inj q p slot c cmd (by rw [← hj]; exact hq) hheld)

/-- The release store of word 0: the slot's five payload words are already in
    place, so its cell now holds the whole command. -/
theorem Inv.of_commit (h : Inv capacity s) {p : P} {slot : Nat} {cmd : TransferCmd} {wi : Nat}
    (hp : s.push p = .store slot cmd wi) (hge6 : ¬ wi < kCmdWords) :
    Inv capacity { s with
      triggers := setCell s.triggers capacity.val slot
        (copyWord (cell s.triggers capacity.val slot) cmd.words 0)
      push := Function.update s.push p .idle } := by
  rcases h.admitted p slot cmd wi hp with ⟨hslot, hwi, hwords⟩
  have hheldp : (s.push p).held = some (slot, cmd) := by rw [hp, PushPc.held]
  rcases h.held p slot cmd hheldp with ⟨hge, hget⟩
  set t : State P := { s with
      triggers := setCell s.triggers capacity.val slot
        (copyWord (cell s.triggers capacity.val slot) cmd.words 0)
      push := Function.update s.push p .idle } with ht
  have hpush : ∀ q, q ≠ p → t.push q = s.push q := fun q hq => Function.update_of_ne hq _ _
  have hidle : t.push p = .idle := Function.update_self _ _ _
  -- Nobody holds a slot afterwards that was not held before.
  have hheld : ∀ q j c, (t.push q).held = some (j, c) → q ≠ p ∧ (s.push q).held = some (j, c) := by
    intro q j c hq
    by_cases hqp : q = p
    · rw [hqp, hidle] at hq
      exact absurd hq (by simp only [PushPc.held, reduceCtorEq, not_false_eq_true])
    · rw [hpush q hqp] at hq
      exact ⟨hqp, hq⟩
  have hne_of_held : ∀ q j c, (t.push q).held = some (j, c) → j ≠ slot := by
    intro q j c hq hc
    rcases hheld q j c hq with ⟨hqp, hq'⟩
    rw [hc] at hq'
    exact hqp (h.held_inj q p slot c cmd hq' hheldp)
  have hw : ∀ j, Written t j ↔ Written s j ∨ j = slot := written_commit h hheldp rfl rfl
  have hwo : ∀ j, j ≠ slot → (Written t j ↔ Written s j) := fun j hj => by
    rw [hw j, or_iff_left hj]
  have hwslot : Written t slot := (hw slot).mpr (Or.inr rfl)
  have hnot : ¬ Written s slot := fun hc => hc.2 p cmd hheldp
  have hother : ∀ j, s.cpuHead ≤ j → j < s.cpuHead + capacity.val → j ≠ slot →
      cell t.triggers capacity.val j = cell s.triggers capacity.val j :=
    fun j hj hj' hne => cell_setCell_window hge hslot hj hj' hne
  -- Words 1 to 5 were stored before, word 0 is stored now.
  have hself : cell t.triggers capacity.val slot = cmd.words := by
    have hcell : cell t.triggers capacity.val slot
        = copyWord (cell s.triggers capacity.val slot) cmd.words 0 := cell_setCell_self _ _ _ _
    rw [hcell]
    funext i
    by_cases hi : i.val = 0
    · rw [copyWord, if_pos hi]
    · rw [copyWord, if_neg hi]
      exact hwords i (by omega) (by have := i.isLt; simp only [kCmdWords] at hge6; omega)
  -- The host is not inside a poll of this slot, which was not written.
  have hclr : ¬ Cleared s slot := by
    rintro ⟨hc, out, hout⟩
    have hpi := h.poll
    simp only [PollInv, hout] at hpi
    exact hnot (hc ▸ hpi.1)
  refine ⟨h.head_eq, h.cpuHead_le, h.polled_eq, h.tail_le, h.cache_le, h.nonempty, ?_, ?_, ?_,
    ?_, ?_, ?_, ?_, ?_⟩
  · intro q j c hq
    exact h.held q j c (hheld q j c hq).2
  · intro q r j c d hq hr
    exact h.held_inj q r j c d (hheld q j c hq).2 (hheld r j d hr).2
  · intro q j c u hq
    by_cases hqp : q = p
    · rw [hqp, hidle] at hq
      exact absurd hq (by simp only [reduceCtorEq, not_false_eq_true])
    · exact h.loaded q j c u (by rw [← hpush q hqp]; exact hq)
  · intro q j c wj hq
    by_cases hqp : q = p
    · rw [hqp, hidle] at hq
      exact absurd hq (by simp only [reduceCtorEq, not_false_eq_true])
    · have hheldq : (t.push q).held = some (j, c) := by rw [hq, PushPc.held]
      rw [hpush q hqp] at hq
      rcases h.admitted q j c wj hq with ⟨hj, hwj, hcell⟩
      refine ⟨hj, hwj, fun i h1 h2 => ?_⟩
      rw [hother j (h.held q j c (hheld q j c hheldq).2).1 hj (hne_of_held q j c hheldq)]
      exact hcell i h1 h2
  · intro j hj hwj
    by_cases hne : j = slot
    · rw [hne]
      exact hslot
    · exact h.ready j hj ((hwo j hne).mp hwj)
  · intro j c hj hf hc
    by_cases hne : j = slot
    · have hc' : some cmd = some c := by rw [← hget, ← hne]; exact hc
      rw [hne, hself, Option.some.inj hc']
    · have hf' : Full s j := ⟨(hwo j hne).mp hf.1, hf.2⟩
      rw [hother j hj (h.ready j hj hf'.1) hne]
      exact h.full j c hj hf' hc
  · intro j hj hj' hf
    by_cases hne : j = slot
    · exact absurd ⟨hne ▸ hwslot, hne ▸ hclr⟩ hf
    · rw [hother j hj hj' hne]
      exact h.free j hj hj' (fun hc => hf ⟨(hwo j hne).mpr hc.1, hc.2⟩)
  · refine pollInv_of_kept h.poll rfl rfl fun hcur => ?_
    have hne : s.cpuHead ≠ slot := fun hc => hnot (hc ▸ hcur)
    exact ⟨(hwo _ hne).mpr hcur, hother _ (Nat.le_refl _) h.cpuHead_lt hne, rfl⟩

/-- The 64-bit sum in the test is never more than the true sum. -/
theorem u64_le (n : Nat) : u64 n ≤ n := Nat.mod_le _ _

/-- One access of a thread inside `push` keeps the invariant. -/
theorem device_inv (h : Inv capacity s) {p : P} {t : State P}
    (hstep : deviceStep capacity s p = some t) : Inv capacity t := by
  unfold deviceStep at hstep
  cases hp : s.push p with
  | idle =>
      rw [hp] at hstep
      exact absurd hstep (by simp only [reduceCtorEq, not_false_eq_true])
  | test slot cmd =>
      simp only [hp, Option.some.injEq] at hstep
      rw [← hstep]
      refine h.of_thread ?_ h.cache_le ?_ ?_
      · rw [hp]; split <;> rfl
      · intro j c u hc; split at hc <;> exact absurd hc (by simp)
      · intro j c wi hc
        split at hc
        · exact absurd hc (by simp)
        · -- The thread may store where the tail it knows is near enough.
          rename_i hlt
          simp only [PushPc.store.injEq] at hc
          have hle := u64_le (capacity.val + s.tailCache)
          have hcache := h.cache_le
          exact ⟨by omega, by omega⟩
  | load slot cmd =>
      simp only [hp, Option.some.injEq] at hstep
      rw [← hstep]
      refine h.of_thread (by rw [hp]; rfl) h.cache_le ?_ ?_
      · intro j c u hc
        simp only [PushPc.refresh.injEq] at hc
        -- What it loads is the tail as it is now.
        rw [← hc.2.2]
        exact h.tail_le
      · intro j c wi hc; exact absurd hc (by simp)
  | refresh slot cmd u =>
      simp only [hp, Option.some.injEq] at hstep
      rw [← hstep]
      have hu := h.loaded p slot cmd u hp
      refine h.of_thread ?_ hu ?_ ?_
      · rw [hp]; split <;> rfl
      · intro j c v hc; split at hc <;> exact absurd hc (by simp)
      · intro j c wi hc
        split at hc
        · rename_i hlt
          simp only [PushPc.store.injEq] at hc
          -- The tail it has loaded is the one it knows from now on.
          have hle := u64_le (capacity.val + u)
          exact ⟨by omega, by omega⟩
        · exact absurd hc (by simp)
  | store slot cmd wi =>
      simp only [hp] at hstep
      -- A word of the command is copied, or with the last one the slot is handed over.
      by_cases hlt : wi < kCmdWords
      · rw [if_pos hlt, Option.some.injEq,
          update_slotIndex s slot (fun w => copyWord w cmd.words wi)] at hstep
        rw [← hstep]
        exact h.of_store hp
      · rw [if_neg hlt, Option.some.injEq,
          update_slotIndex s slot (fun w => copyWord w cmd.words 0)] at hstep
        rw [← hstep]
        exact h.of_commit hp hlt

/-- A fresh claim is held by its thread, so nothing is written by it. -/
theorem written_push (h : Inv capacity s) {t : State P} {p : P} {cmd : TransferCmd}
    (hp : s.push p = .idle) (hclaimed : t.claimed = s.claimed ++ [cmd])
    (hpush : t.push = Function.update s.push p (.test s.head cmd)) (j : Nat) :
    Written t j ↔ Written s j := by
  have hlen : t.claimed.length = s.claimed.length + 1 := by
    rw [hclaimed, List.length_append, List.length_singleton]
  have hother : ∀ q, q ≠ p → t.push q = s.push q := fun q hq => by
    rw [hpush, Function.update_of_ne hq]
  have htest : t.push p = .test s.head cmd := by rw [hpush, Function.update_self]
  constructor
  · rintro ⟨hj, hn⟩
    -- The new claim is the thread's own, and not yet written.
    have hjne : j ≠ s.claimed.length := by
      rintro rfl
      exact hn p cmd (by rw [htest, PushPc.held, h.head_eq])
    refine ⟨by omega, fun q c hq => ?_⟩
    by_cases hqp : q = p
    · rw [hqp, hp] at hq
      exact absurd hq (by simp only [PushPc.held, reduceCtorEq, not_false_eq_true])
    · exact hn q c (by rw [hother q hqp]; exact hq)
  · -- No other thread holds it.
    rintro ⟨hj, hn⟩
    refine ⟨by omega, fun q c hq => ?_⟩
    by_cases hqp : q = p
    · rw [hqp, htest, PushPc.held, h.head_eq, Option.some.injEq, Prod.mk.injEq] at hq
      omega
    · exact hn q c (by rw [← hother q hqp]; exact hq)

/-- Claiming a slot: one more position exists, held by the claiming thread. -/
theorem push_inv (h : Inv capacity s) {p : P} {cmd : TransferCmd} (hp : s.push p = .idle)
    (hcmd : cmd.cmdType ≠ .empty) (hbound : s.claimed.length + 1 < 2 ^ 64) :
    Inv capacity { s with
      head := u64 (s.head + 1)
      push := Function.update s.push p (.test s.head cmd)
      claimed := s.claimed ++ [cmd] } := by
  set t : State P := { s with
      head := u64 (s.head + 1)
      push := Function.update s.push p (.test s.head cmd)
      claimed := s.claimed ++ [cmd] } with ht
  have hpush : ∀ q, q ≠ p → t.push q = s.push q := fun q hq => Function.update_of_ne hq _ _
  have htest : t.push p = .test s.head cmd := Function.update_self _ _ _
  have hlen : t.claimed.length = s.claimed.length + 1 := by
    rw [ht, List.length_append, List.length_singleton]
  have hold : ∀ j, j < s.claimed.length → t.claimed[j]? = s.claimed[j]? :=
    fun j hj => List.getElem?_append_left hj
  have hnew : t.claimed[s.claimed.length]? = some cmd := List.getElem?_concat_length
  -- Slots are held by the same threads as before, the new one by `p`.
  have hheld : ∀ q j c, (t.push q).held = some (j, c) →
      (q = p ∧ j = s.claimed.length ∧ c = cmd) ∨ (q ≠ p ∧ (s.push q).held = some (j, c)) := by
    intro q j c hq
    by_cases hqp : q = p
    · rw [hqp, htest] at hq
      simp only [PushPc.held, Option.some.injEq, Prod.mk.injEq] at hq
      exact Or.inl ⟨hqp, by rw [← hq.1, h.head_eq], hq.2.symm⟩
    · rw [hpush q hqp] at hq
      exact Or.inr ⟨hqp, hq⟩
  have hheldlt : ∀ q j c, (s.push q).held = some (j, c) → j < s.claimed.length :=
    fun q j c hq => (List.getElem?_eq_some_iff.mp (h.held q j c hq).2).1
  have hw : ∀ j, Written t j ↔ Written s j := written_push h hp rfl rfl
  have hfull : ∀ j, Full t j ↔ Full s j := fun j => and_congr (hw j) Iff.rfl
  have hhead : t.head = t.claimed.length := by
    rw [hlen, ht]
    simp only [u64]
    rw [h.head_eq, Nat.mod_eq_of_lt hbound]
  refine ⟨hhead, by rw [hlen]; exact Nat.le_succ_of_le h.cpuHead_le, ?_, h.tail_le, h.cache_le,
    ?_, ?_, ?_, ?_, ?_, ?_, ?_, ?_, ?_⟩
  · have htake : t.claimed.take s.cpuHead = s.claimed.take s.cpuHead :=
      List.take_append_of_le_length h.cpuHead_le
    have hcpu : t.cpuHead = s.cpuHead := rfl
    rw [hcpu, htake]
    exact h.polled_eq
  · intro c hc
    rcases List.mem_append.mp hc with hc | hc
    · exact h.nonempty c hc
    · rw [List.mem_singleton.mp hc]
      exact hcmd
  · intro q j c hq
    rcases hheld q j c hq with ⟨_, rfl, rfl⟩ | ⟨_, hq'⟩
    · exact ⟨h.cpuHead_le, hnew⟩
    · exact ⟨(h.held q j c hq').1, by rw [hold j (hheldlt q j c hq')]; exact (h.held q j c hq').2⟩
  · intro q r j c d hq hr
    rcases hheld q j c hq with ⟨rfl, hj, _⟩ | ⟨_, hq'⟩ <;>
      rcases hheld r j d hr with ⟨hrp, hj', _⟩ | ⟨_, hr'⟩
    · exact hrp.symm
    · have := hheldlt r j d hr'
      omega
    · have := hheldlt q j c hq'
      omega
    · exact h.held_inj q r j c d hq' hr'
  · intro q j c u hq
    by_cases hqp : q = p
    · rw [hqp, htest] at hq
      exact absurd hq (by simp only [reduceCtorEq, not_false_eq_true])
    · exact h.loaded q j c u (by rw [← hpush q hqp]; exact hq)
  · intro q j c wi hq
    by_cases hqp : q = p
    · rw [hqp, htest] at hq
      exact absurd hq (by simp only [reduceCtorEq, not_false_eq_true])
    · exact h.admitted q j c wi (by rw [← hpush q hqp]; exact hq)
  · intro j hj hwj
    exact h.ready j hj ((hw j).mp hwj)
  · intro j c hj hf hc
    have hf' := (hfull j).mp hf
    rw [hold j hf'.1.1] at hc
    exact h.full j c hj hf' hc
  · intro j hj hj' hf
    exact h.free j hj hj' (fun hc => hf ((hfull j).mpr hc))
  · exact pollInv_of_kept h.poll rfl rfl fun hcur => ⟨(hw _).mpr hcur, rfl, hold _ hcur.1⟩

theorem claimed_length_le {a : Action P} {t : State P} (hstep : step capacity s a = some t) :
    s.claimed.length ≤ t.claimed.length := by
  cases a with
  | push p cmd =>
      simp only [step] at hstep
      split at hstep
      · rw [← Option.some.inj hstep]
        simp only [List.length_append, List.length_singleton]
        omega
      · exact absurd hstep (by simp only [reduceCtorEq, not_false_eq_true])
  | device p =>
      simp only [step, deviceStep] at hstep
      split at hstep
      · exact absurd hstep (by simp only [reduceCtorEq, not_false_eq_true])
      -- The accesses inside of a push claim nothing.
      all_goals first
        | (rw [← Option.some.inj hstep])
        | (split at hstep <;> rw [← Option.some.inj hstep])
  | host =>
      simp only [step, hostStep] at hstep
      rw [← Option.some.inj hstep]
      split <;> (try split) <;> exact Nat.le_refl _
  | advanceTail v =>
      simp only [step] at hstep
      split at hstep
      · split at hstep
        · rw [← Option.some.inj hstep]
        · exact absurd hstep (by simp only [reduceCtorEq, not_false_eq_true])
      · exact absurd hstep (by simp only [reduceCtorEq, not_false_eq_true])

/-- One memory access of any thread keeps the invariant, as long as `head`
    has not wrapped. -/
theorem step_inv (h : Inv capacity s) {a : Action P} {t : State P}
    (hstep : step capacity s a = some t) (hbound : t.claimed.length < 2 ^ 64) :
    Inv capacity t := by
  cases a with
  | push p cmd =>
      simp only [step] at hstep
      split at hstep
      · rename_i hg
        have heq := Option.some.inj hstep
        rw [← heq] at hbound ⊢
        exact push_inv h hg.1 hg.2
          (by simpa only [List.length_append, List.length_singleton] using hbound)
      · exact absurd hstep (by simp only [reduceCtorEq, not_false_eq_true])
  | device p => exact device_inv h hstep
  | host =>
      simp only [step, Option.some.injEq] at hstep
      have hhost : step capacity s Action.host = some t := by rw [step, hstep]
      -- The host claims nothing, so `head` has not wrapped for it either.
      have hle := claimed_length_le hhost
      rw [← hstep]
      exact host_inv h (by omega)
  | advanceTail v =>
      simp only [step] at hstep
      split at hstep
      · split at hstep
        · rename_i hv
          rw [← Option.some.inj hstep]
          exact advanceTail_inv h hv
        · exact absurd hstep (by simp only [reduceCtorEq, not_false_eq_true])
      · exact absurd hstep (by simp only [reduceCtorEq, not_false_eq_true])

/-- Every interleaving of the threads' accesses keeps the invariant, as long
    as `head` has not wrapped. -/
theorem inv_of_reaches {ok : State P → Action P → Prop}
    (h : Reaches (step capacity) ok (init P) s) (hbound : s.claimed.length < 2 ^ 64) :
    Inv capacity s := by
  refine invariant_of_reaches (fun s => s.claimed.length < 2 ^ 64 → Inv capacity s) ?_ h
    (fun _ => inv_init capacity) hbound
  intro s a t ih _ hstep hlt
  exact step_inv (ih (Nat.lt_of_le_of_lt (claimed_length_le hstep) hlt)) hstep hlt

/-- Every value of `tail` a pushing thread has seen, in `tail_cache` or about
    to go there, is at most the present one. -/
def CacheInv (s : State P) : Prop :=
  s.tailCache ≤ s.tail ∧ ∀ p j c t, s.push p = .refresh j c t → t ≤ s.tail

theorem CacheInv.of_thread {t : State P} (h : CacheInv s) {p : P} (htail : t.tail = s.tail)
    (hcache : t.tailCache ≤ t.tail) (hpush : ∀ q, q ≠ p → t.push q = s.push q)
    (hp : ∀ j c u, t.push p = .refresh j c u → u ≤ s.tail) : CacheInv t := by
  refine ⟨hcache, fun q j c u hq => ?_⟩
  rw [htail]
  by_cases hqp : q = p
  · exact hp j c u (hqp ▸ hq)
  · exact h.2 q j c u (by rw [← hpush q hqp]; exact hq)

/-- A tail that does not move back stays above every copy of it. -/
theorem cacheInv_step (h : CacheInv s) {a : Action P} {t : State P}
    (hok : Monotone s a) (hstep : step capacity s a = some t) : CacheInv t := by
  cases a with
  | push p cmd =>
      simp only [step] at hstep
      split at hstep
      · rw [← Option.some.inj hstep]
        -- A push begins without a copy of the tail.
        refine h.of_thread (p := p) rfl h.1 (fun q hq => Function.update_of_ne hq _ _) ?_
        intro j c u hu
        simp only [Function.update_self, reduceCtorEq] at hu
      · exact absurd hstep (by simp only [reduceCtorEq, not_false_eq_true])
  | device p =>
      simp only [step, deviceStep] at hstep
      split at hstep
      · exact absurd hstep (by simp only [reduceCtorEq, not_false_eq_true])
      · rw [← Option.some.inj hstep]
        refine h.of_thread (p := p) rfl h.1 (fun q hq => Function.update_of_ne hq _ _) ?_
        intro j c u hu
        simp only [Function.update_self] at hu
        split at hu <;> exact absurd hu (by simp only [reduceCtorEq, not_false_eq_true])
      · -- The copy is the tail itself.
        rw [← Option.some.inj hstep]
        refine h.of_thread (p := p) rfl h.1 (fun q hq => Function.update_of_ne hq _ _) ?_
        intro j c u hu
        simp only [Function.update_self, PushPc.refresh.injEq] at hu
        exact Nat.le_of_eq hu.2.2.symm
      · -- What is cached is what was loaded, which the tail has not moved back from.
        rename_i slot cmd u hp
        rw [← Option.some.inj hstep]
        refine h.of_thread (p := p) rfl (h.2 p slot cmd u hp)
          (fun q hq => Function.update_of_ne hq _ _) ?_
        intro j c v hv
        simp only [Function.update_self] at hv
        split at hv <;> exact absurd hv (by simp only [reduceCtorEq, not_false_eq_true])
      · split at hstep <;>
          · rw [← Option.some.inj hstep]
            refine h.of_thread (p := p) rfl h.1 (fun q hq => Function.update_of_ne hq _ _) ?_
            intro j c u hu
            simp only [Function.update_self, reduceCtorEq] at hu
  | host =>
      simp only [step, hostStep] at hstep
      rw [← Option.some.inj hstep]
      split <;> (try split) <;> exact h
  | advanceTail v =>
      simp only [step] at hstep
      split at hstep
      · split at hstep
        · rw [← Option.some.inj hstep]
          -- The tail has moved on, so the copies are below it still.
          exact ⟨Nat.le_trans h.1 hok, fun p j c u hu => Nat.le_trans (h.2 p j c u hu) hok⟩
        · exact absurd hstep (by simp only [reduceCtorEq, not_false_eq_true])
      · exact absurd hstep (by simp only [reduceCtorEq, not_false_eq_true])

/-- Where `advance_tail` never moves the tail back, the cached tail is at most
    the tail, however late and out of order the threads refresh it. -/
theorem cache_le_tail_of_reaches
    (h : Reaches (step capacity) Monotone (init P) s) : s.tailCache ≤ s.tail := by
  have hinv : CacheInv s := invariant_of_reaches CacheInv
    (fun _ _ _ ih hok hstep => cacheInv_step ih hok hstep) h
    ⟨Nat.le_refl _, by simp only [init, reduceCtorEq, false_implies, implies_true]⟩
  exact hinv.1

end D2HFifo

end Internode

end MKernel
