/-
# From reset to the console

`kmain` writes a NUL-terminated message to the data register of the UART, one character at a
time, and then spins.  The message is a string literal: its characters lie in `.rodata`, were
put there by whoever loaded the image, and are read long after the start-up code has run.  So
what appears on the console depends on both halves of the boot code, and on two facts about
addresses: clearing `.bss` must not reach `.rodata` (`ClearsBss.frame`), and the UART must lie
outside RAM, because the loop reads memory after it has stored to the register.

`kmain_prints` is the loop for an arbitrary message, and `boot_prints` the way from `_start`.
Both speak of every number of turns: after `m` of them the console has the first `m` characters,
so nothing is ever printed twice or after the end, and the loop ends in the spin.
-/
import CleoKernel.Boot.Entry

namespace CleoKernel.Boot

open CleoKernel.Aarch64 CleoKernel.Checked CleoKernel.Transition

/-! ## 1. `main.cpp` -/

abbrev Byte := BitVec 8

/-- `UART0`, the data register. -/
def uart0 : Addr := 0x09000000

/-- The two loops of `kmain`. -/
inductive KmainPc
  /-- `while (*msg)` -/
  | print
  /-- `while (1)` -/
  | spin
  deriving DecidableEq

structure Kmain where
  pc : KmainPc
  msg : Addr
  mem : Mem

/-- One turn of the loop `kmain` is in, with the characters it stores to `UART0`. -/
def Kmain.turn (s : Kmain) : Option (List Byte × Kmain) :=
  match s.pc with
  | .print =>
    if s.mem s.msg = 0 then some ([], { s with pc := .spin })
    else some ([s.mem s.msg],
      { s with msg := s.msg + 1, mem := Function.update s.mem uart0 (s.mem s.msg) })
  | .spin => some ([], s)

/-- The literal in the source. -/
def message : List Byte := "hello world\n".toList.map fun c => .ofNat 8 c.toNat

/-! ## 2. Strings in memory -/

/-- Memory holds the characters `w` from `a` on, and then a NUL. -/
def Holds (m : Mem) : Addr → List Byte → Prop
  | a, [] => m a = 0
  | a, c :: w => m a = c ∧ c ≠ 0 ∧ Holds m (a + 1) w

instance Holds.decidable (m : Mem) : ∀ (a : Addr) (w : List Byte), Decidable (Holds m a w)
  | a, [] => inferInstanceAs (Decidable (m a = 0))
  | a, c :: w =>
    have := Holds.decidable m (a + 1) w
    inferInstanceAs (Decidable (m a = c ∧ c ≠ 0 ∧ Holds m (a + 1) w))

/-- The address behind one that is not the last. -/
theorem toNat_next {a : Addr} (h : a.toNat + 1 < 2 ^ 64) : (a + 1).toNat = a.toNat + 1 :=
  (BitVec.toNat_add a 1).trans (Nat.mod_eq_of_lt h)

/-- A string is there as long as its own bytes do not change. -/
theorem Holds.congr {m m' : Mem} {a : Addr} {w : List Byte} (h : Holds m a w)
    (hw : a.toNat + w.length < 2 ^ 64)
    (heq : ∀ p : Addr, a.toNat ≤ p.toNat → p.toNat ≤ a.toNat + w.length → m' p = m p) :
    Holds m' a w := by
  induction w generalizing a with
  | nil => exact (heq a (Nat.le_refl _) (Nat.le_refl _)).trans h
  | cons c w ih =>
    obtain ⟨hc, hne, hrest⟩ := h
    rw [List.length_cons] at hw heq
    have hnext : (a + 1).toNat = a.toNat + 1 := toNat_next (by omega)
    refine ⟨(heq a (Nat.le_refl _) (by omega)).trans hc, hne, ih hrest (by omega) ?_⟩
    exact fun p hlo hhi => heq p (by omega) (by omega)

/-- The UART lies below RAM. -/
theorem uart0_lt_ramOrigin : uart0.toNat < ramOrigin := by decide

/-- A string in RAM survives a store to the UART. -/
theorem Holds.update_uart0 {m : Mem} {a : Addr} {w : List Byte} {c : Byte} (h : Holds m a w)
    (hram : ramOrigin ≤ a.toNat) (hw : a.toNat + w.length < 2 ^ 64) :
    Holds (Function.update m uart0 c) a w := by
  refine h.congr hw fun p hlo _ => Function.update_of_ne ?_ ..
  rintro rfl
  exact absurd uart0_lt_ramOrigin (Nat.not_lt.mpr (hram.trans hlo))

/-! ## 3. What appears on the console -/

/-- **`kmain` prints its message and nothing else**, whatever the message is: after `n` turns
the console has its first `n` characters, and from then on `kmain` spins. -/
theorem kmain_prints {s : Kmain} {w : List Byte} (hpc : s.pc = .print)
    (h : Holds s.mem s.msg w) (hram : ramOrigin ≤ s.msg.toNat)
    (hw : s.msg.toNat + w.length < 2 ^ 64) (n : ℕ) :
    ∃ t, runFor Kmain.turn n s = some (w.take n, t) ∧ (w.length < n → t.pc = .spin) := by
  induction n generalizing s w with
  | zero => exact ⟨s, rfl, fun hlt => absurd hlt (Nat.not_lt_zero _)⟩
  | succ n ih =>
    obtain ⟨pc, msg, mem⟩ := s
    subst hpc
    cases w with
    | nil =>
      -- the terminator: from here on the second loop turns in silence
      have hturn : Kmain.turn ⟨.print, msg, mem⟩ = some ([], ⟨.spin, msg, mem⟩) := if_pos h
      have hspin : ∀ s : Kmain, s.pc = .spin → ∃ s', s.turn = some ([], s') ∧ s'.pc = .spin :=
        fun s hs => ⟨s, by rw [Kmain.turn, hs], hs⟩
      obtain ⟨t, hrun, ht⟩ := runFor_silent hspin (s := ⟨.spin, msg, mem⟩) rfl n
      exact ⟨t, runFor_succ hturn hrun, fun _ => ht⟩
    | cons c w =>
      obtain ⟨rfl, hne, hrest⟩ := h
      rw [List.length_cons] at hw
      simp only at hram hw hrest
      have hnext : (msg + 1).toNat = msg.toNat + 1 := toNat_next (by omega)
      have hturn : Kmain.turn ⟨.print, msg, mem⟩ = some ([mem msg],
          ⟨.print, msg + 1, Function.update mem uart0 (mem msg)⟩) := if_neg hne
      obtain ⟨t, hrun, ht⟩ := ih (s := ⟨.print, msg + 1, Function.update mem uart0 (mem msg)⟩) rfl
        (hrest.update_uart0 (by omega) (by omega)) (by simp only; omega) (by simp only; omega)
      exact ⟨t, runFor_succ hturn hrun, fun hlt => ht (Nat.lt_of_succ_lt_succ hlt)⟩

/-- **From `_start` to the console.**  If the image holds the message in `.rodata`, the core
gets from `_start` to `kmain`, and what `kmain` then stores to the UART, in however many turns,
is the message from its beginning, once. -/
theorem boot_prints (L : Layout) (kmain : Addr) (s : Cpu) (msg : Addr) (w : List Byte)
    (h : Holds s.mem msg w) (hlo : L.rodataStart ≤ msg.toNat)
    (hhi : msg.toNat + w.length < L.rodataEnd) :
    ∃ n stores t,
      runFor (Cpu.step (code L kmain)) n { s with pc := startAddr } = some (stores, t) ∧
      t.pc = kmain ∧
      ∀ m, ∃ u, runFor Kmain.turn m ⟨.print, msg, t.mem⟩ = some (w.take m, u) ∧
        (w.length < m → u.pc = .spin) := by
  obtain ⟨n, stores, t, hrun, -, hclear, hentered⟩ := start_enters L kmain s
  have htext := L.text_le
  have hrodata := L.rodata_ge
  have hdata := L.data_ge
  have hdata' := L.data_le
  have hbss := L.bss_ge
  have hend := L.bss_le.trans L.bss_fits
  have hram : ramEnd < 2 ^ 64 := by decide
  have hmsg : Holds t.mem msg w :=
    h.congr (by omega) fun p _ hp => hclear.frame p (Or.inl (by omega))
  exact ⟨n, stores, t, hrun, hentered.pc, kmain_prints rfl hmsg (by simp only; omega)
    (by simp only; omega)⟩

/-- The message of the source, in an image with 4 KB of code and an unaligned `.bss`: a hundred
turns print it once, and `kmain` spins. -/
theorem boot_prints_message : ∃ (L : Layout) (s : Cpu) (n : ℕ) (stores : List Addr) (t : Cpu)
    (u : Kmain), runFor (Cpu.step (code L 0x40000040)) n { s with pc := startAddr } =
        some (stores, t) ∧
      runFor Kmain.turn 100 ⟨.print, 0x40001000, t.mem⟩ = some (message, u) ∧ u.pc = .spin := by
  let L : Layout := {
    textEnd := 0x40001000
    rodataStart := 0x40001000
    rodataEnd := 0x40001010
    dataStart := 0x40001010
    dataEnd := 0x40001020
    bssStart := 0x40002000
    bssEnd := 0x4000200d
    text_le := by decide
    rodata_ge := by decide
    rodata_le := by decide
    data_ge := by decide
    data_le := by decide
    bss_ge := by decide
    bss_aligned := by decide
    bss_le := by decide
    bss_fits := by decide }
  let image : Mem := fun p => message.getD (p - 0x40001000).toNat 0
  obtain ⟨n, stores, t, hrun, -, hprint⟩ := boot_prints L 0x40000040
    { x := fun _ => 0, sp := 0, flags := ⟨false, false, false, false⟩, pc := 0, mem := image }
    0x40001000 message (by decide) (by decide) (by decide)
  obtain ⟨u, hu, hspin⟩ := hprint 100
  exact ⟨L, _, n, stores, t, u, hrun, hu, hspin (by decide)⟩

end CleoKernel.Boot
