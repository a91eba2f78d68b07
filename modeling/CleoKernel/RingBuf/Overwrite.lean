/-
# Which capacities keep live slots apart, however long the buffer runs

Nothing in `ring_buf.hpp` constrains `N`, and the counters are never reset.  So a buffer that
runs long enough takes `tail_` past `2^64` while `head_` is still below it, and the slots of
the live elements are computed partly before and partly after the wrap.

Whether they stay distinct is settled here for every capacity, over every history of pushes
and pops: they do if and only if `N` divides `2^64` (`noLiveOverwrite_iff_dvd`).  One direction
is the injectivity of a window (`Window.slotOf_inj_window`).  For the other, EVERY window of
at most `N` counts is reached by some history (`reachable_window`), the one at the wrap
included, and there two live elements share a slot (`Window.slotOf_collision`).
-/
import CleoKernel.RingBuf.Basic

namespace CleoKernel.RingBuf

open CleoKernel.Window

variable {T : Type*} {N : UInt64}

/-! ## 1. Histories of pushes and pops -/

/-- What any finite sequence of `push` (either overload) and `pop` makes of a new buffer. -/
inductive Reachable [Inhabited T] (N : UInt64) : RingBuffer T N → Prop
  | construct : Reachable N (.construct N)
  | push {b b' : RingBuffer T N} {val : T} {r : Except Error Unit} :
      Reachable N b → b.push val = some (r, b') → Reachable N b'
  | pushMove {b b' : RingBuffer T N} {moved : T → T} {val : T} {r : Except Error Unit × T} :
      Reachable N b → b.pushMove moved val = some (r, b') → Reachable N b'
  | pop {b : RingBuffer T N} : Reachable N b → Reachable N b.pop.2

/-- The slot of the `i`-th live element, `((head_ + i) mod 2^64) mod N`. -/
def liveSlot (b : RingBuffer T N) (i : UInt64) : Option (Fin N.toNat) := slot N (b.head + i)

/-- The live elements do not overwrite each other: their slots are pairwise distinct, the slot
the next push writes is none of them, and a push that succeeds keeps what they hold. -/
structure NoLiveOverwrite (b : RingBuffer T N) : Prop where
  distinct : ∀ i j, i < b.size → j < b.size → liveSlot b i = liveSlot b j → i = j
  nextFree : b.size < N → ∀ i < b.size, liveSlot b i ≠ slot N b.tail
  pushKeeps : ∀ val b', b.push val = some (.ok (), b') →
    ∀ i < b.size, ∀ s, liveSlot b i = some s → b'.rb s = b.rb s

/-! ## 2. The counters of a reachable buffer -/

/-- The counters stand at the true counts `h` and `t`, at most `N` apart. -/
structure Window (b : RingBuffer T N) (h t : ℕ) : Prop where
  head : b.head = UInt64.ofNat h
  tail : b.tail = UInt64.ofNat t
  le : h ≤ t
  bound : t ≤ h + N.toNat

namespace Window

variable {b b' : RingBuffer T N} {h t : ℕ}

/-- The distance of the two counters fits in a counter. -/
theorem dist_lt (w : Window b h t) : t - h < wrap := by
  have := w.bound
  have := N.toNat_lt
  rw [wrap]
  omega

theorem size_toNat (w : Window b h t) : b.size.toNat = t - h := by
  rw [RingBuffer.size, w.head, w.tail, toNat_ofNat_sub w.le w.dist_lt]

theorem size_beq (w : Window b h t) (n : UInt64) : (b.size == n) = decide (t - h = n.toNat) := by
  rw [RingBuffer.size, w.head, w.tail, ofNat_sub_beq w.le w.dist_lt]

/-- The slot of a live element, through its true count. -/
theorem liveSlot_eq_some (w : Window b h t) {i : UInt64} {s : Fin N.toNat} :
    liveSlot b i = some s ↔ s.val = slotNat N (h + i.toNat) := by
  rw [liveSlot, w.head, ← slot_ofNat_eq_some, UInt64.ofNat_add, UInt64.ofNat_toNat]

/-- A successful push writes the slot of `t` and moves the window's end. -/
theorem push_ok (w : Window b h t) (val : T) (hlt : t - h < N.toNat) :
    ∃ s : Fin N.toNat, s.val = slotNat N t ∧
      b.push val = some (.ok (), { b.write s val with tail := b.tail + 1 }) := by
  obtain ⟨s, hs⟩ := slot_exists (by omega : 0 < N.toNat) b.tail
  refine ⟨s, ?_, ?_⟩
  · rw [w.tail] at hs; exact slot_ofNat_eq_some.mp hs
  · rw [RingBuffer.push, RingBuffer.pushBody, RingBuffer.full, w.size_beq, hs]
    simp [show ¬ t - h = N.toNat by omega]

/-- Either a push fails and changes nothing, or the window grows by one. -/
theorem pushBody (w : Window b h t) {val after : T} {r : Except Error Unit × T}
    (hp : b.pushBody val after = some (r, b')) : ∃ h' t', Window b' h' t' := by
  rw [RingBuffer.pushBody, RingBuffer.full, w.size_beq] at hp
  split at hp
  · rw [Option.some.injEq, Prod.mk.injEq] at hp
    exact ⟨h, t, hp.2 ▸ w⟩
  · rename_i hne
    obtain ⟨i, -, hi⟩ := Option.map_eq_some_iff.mp hp
    obtain ⟨-, rfl⟩ := Prod.mk.inj hi
    have hb := w.bound
    have hle := w.le
    have hne' : ¬ t - h = N.toNat := by simpa using hne
    refine ⟨h, t + 1, w.head, ?_, by omega, by omega⟩
    change b.tail + 1 = UInt64.ofNat (t + 1)
    rw [w.tail, ofNat_add_one]

/-- Either a pop fails and changes nothing, or the window shrinks by one. -/
theorem pop (w : Window b h t) : ∃ h' t', Window b.pop.2 h' t' := by
  rw [RingBuffer.pop, RingBuffer.empty, w.size_beq]
  split
  · exact ⟨h, t, w⟩
  · rename_i hne
    have hb := w.bound
    have hle := w.le
    have hne' : ¬ t - h = 0 := by simpa using hne
    refine ⟨h + 1, t, ?_, w.tail, by omega, by omega⟩
    change b.head + 1 = UInt64.ofNat (h + 1)
    rw [w.head, ofNat_add_one]

/-- A pop of a nonempty window. -/
theorem pop_succ (w : Window b h t) (hlt : h < t) : Window b.pop.2 (h + 1) t := by
  rw [RingBuffer.pop, RingBuffer.empty, w.size_beq]
  rw [if_neg (by simp only [UInt64.toNat_zero, decide_eq_true_eq]; omega)]
  have hb := w.bound
  refine ⟨?_, w.tail, hlt, by omega⟩
  change b.head + 1 = UInt64.ofNat (h + 1)
  rw [w.head, ofNat_add_one]

end Window

section Reach

variable [Inhabited T]

theorem window_construct : Window (.construct N : RingBuffer T N) 0 0 :=
  ⟨rfl, rfl, Nat.le_refl 0, Nat.zero_le _⟩

/-- **The counters of a reachable buffer bound a window of at most `N`.** -/
theorem Reachable.window {b : RingBuffer T N} (hr : Reachable N b) : ∃ h t, Window b h t := by
  induction hr with
  | construct => exact ⟨0, 0, window_construct⟩
  | push _ hp ih =>
    obtain ⟨h, t, w⟩ := ih
    obtain ⟨⟨r, b''⟩, hb, heq⟩ := Option.map_eq_some_iff.mp hp
    obtain ⟨-, rfl⟩ := Prod.mk.inj heq
    exact w.pushBody hb
  | pushMove _ hp ih =>
    obtain ⟨h, t, w⟩ := ih
    exact w.pushBody hp
  | pop _ ih =>
    obtain ⟨h, t, w⟩ := ih
    exact w.pop

/-- From any window of fewer than `N` counts a push of `val` succeeds and lengthens it. -/
theorem Reachable.push_ok {b : RingBuffer T N} {h t : ℕ} (hr : Reachable N b)
    (w : Window b h t) (val : T) (hlt : t - h < N.toNat) :
    ∃ b', b.push val = some (.ok (), b') ∧ Reachable N b' ∧ Window b' h (t + 1) ∧
      ∃ s : Fin N.toNat, s.val = slotNat N t ∧ b'.rb s = val := by
  obtain ⟨s, hs, hp⟩ := w.push_ok val hlt
  have hle := w.le
  refine ⟨_, hp, hr.push hp, ⟨w.head, ?_, by omega, by omega⟩, s, hs, ?_⟩
  · change b.tail + 1 = UInt64.ofNat (t + 1)
    rw [w.tail, ofNat_add_one]
  · exact RingBuffer.write_rb_self b s val

/-- Pushing and popping in turn brings an empty buffer to any count. -/
theorem reachable_empty_at (hN : 0 < N.toNat) :
    ∀ k, ∃ b : RingBuffer T N, Reachable N b ∧ Window b k k
  | 0 => ⟨.construct N, .construct, window_construct⟩
  | k + 1 => by
    obtain ⟨b, hr, w⟩ := reachable_empty_at hN k
    obtain ⟨b', -, hr', w', -⟩ := hr.push_ok w default (by omega)
    exact ⟨b'.pop.2, hr'.pop, w'.pop_succ (by omega)⟩

/-- **Every window of at most `N` counts is reached by some history.** -/
theorem reachable_window (hN : 0 < N.toNat) (h : ℕ) :
    ∀ n ≤ N.toNat, ∃ b : RingBuffer T N, Reachable N b ∧ Window b h (h + n)
  | 0, _ => reachable_empty_at hN h
  | n + 1, hn => by
    obtain ⟨b, hr, w⟩ := reachable_window hN h n (by omega)
    obtain ⟨b', -, hr', w', -⟩ := hr.push_ok w default (by omega)
    exact ⟨b', hr', w'⟩

end Reach

/-! ## 3. The two directions -/

/-- With `N` dividing `2^64` the wrap is invisible in the slots. -/
theorem Window.noLiveOverwrite {b : RingBuffer T N} {h t : ℕ} (w : Window b h t)
    (hdvd : N.toNat ∣ 2 ^ 64) : NoLiveOverwrite b := by
  have hc : Coherent wrap N.toNat (h + N.toNat) := Or.inl hdvd
  have hsize := w.size_toNat
  have hle := w.le
  have hb := w.bound
  have hlt : ∀ {i}, i < b.size → i.toNat < t - h := fun hi => by
    rwa [UInt64.lt_iff_toNat_lt, hsize] at hi
  -- a live slot is never the slot of the count one past the window
  have hfree : ∀ i < b.size, t - h < N.toNat → ∀ s, liveSlot b i = some s →
      s.val ≠ slotNat N t := by
    intro i hi hroom s hs heq
    have hi' := hlt hi
    have := slotOf_inj_window hc ⟨Nat.le_add_right h i.toNat, by omega, by omega⟩
      ⟨hle, by omega, by omega⟩ ((w.liveSlot_eq_some.mp hs).symm.trans heq)
    omega
  refine ⟨?_, ?_, ?_⟩
  · intro i j hi hj heq
    have hi' := hlt hi
    have hj' := hlt hj
    obtain ⟨s, hs⟩ := slot_exists (by omega : 0 < N.toNat) (b.head + i)
    have h1 := w.liveSlot_eq_some.mp hs
    have h2 := w.liveSlot_eq_some.mp (heq.symm.trans hs)
    have := slotOf_inj_window hc ⟨Nat.le_add_right h i.toNat, by omega, by omega⟩
      ⟨Nat.le_add_right h j.toNat, by omega, by omega⟩ (h1.symm.trans h2)
    exact UInt64.toNat_inj.mp (by omega)
  · intro hroom i hi heq
    obtain ⟨s, hs⟩ := slot_exists (by have := hlt hi; omega : 0 < N.toNat) b.tail
    rw [UInt64.lt_iff_toNat_lt, hsize] at hroom
    refine hfree i hi hroom s (heq.trans hs) ?_
    rw [w.tail] at hs
    exact slot_ofNat_eq_some.mp hs
  · intro val b' hp i hi s hs
    have hroom : t - h < N.toNat := by
      by_contra hfull
      have heq : t - h = N.toNat := by omega
      rw [RingBuffer.push, RingBuffer.pushBody, RingBuffer.full, w.size_beq] at hp
      simp [heq] at hp
    obtain ⟨s', hs', hp'⟩ := w.push_ok val hroom
    rw [hp', Option.some.injEq, Prod.mk.injEq] at hp
    rw [← hp.2]
    refine RingBuffer.write_rb_of_ne (fun heq => hfree i hi hroom s hs ?_)
    rw [heq, hs']

/-- **The capacities for which no live slot is ever overwritten are exactly the divisors of
`2^64`.** -/
theorem noLiveOverwrite_iff_dvd [Inhabited T] (N : UInt64) (hN : 1 ≤ N) :
    (∀ b : RingBuffer T N, Reachable N b → NoLiveOverwrite b) ↔ N.toNat ∣ 2 ^ 64 := by
  have hpos : 0 < N.toNat := by rwa [UInt64.le_iff_toNat_le] at hN
  constructor
  · intro hall
    by_contra hdvd
    have hr : 2 ^ 64 % N.toNat < N.toNat := Nat.mod_lt _ hpos
    -- the window whose first count is the last one before the wrap
    obtain ⟨b, hb, w⟩ := reachable_window (T := T) hpos (2 ^ 64 - 1) (2 ^ 64 % N.toNat + 1) hr
    have hsize := w.size_toNat
    have hNlt := N.toNat_lt
    have hi : (0 : UInt64) < b.size := by
      rw [UInt64.lt_iff_toNat_lt, hsize, UInt64.toNat_zero]; omega
    have hj : UInt64.ofNat (2 ^ 64 % N.toNat) < b.size := by
      rw [UInt64.lt_iff_toNat_lt, hsize, UInt64.toNat_ofNat']; omega
    obtain ⟨s, hs⟩ := slot_exists hpos (b.head + 0)
    have hs' : liveSlot b (UInt64.ofNat (2 ^ 64 % N.toNat)) = some s := by
      rw [w.liveSlot_eq_some, UInt64.toNat_ofNat', Nat.mod_eq_of_lt (by omega)]
      exact (w.liveSlot_eq_some.mp hs).trans (slotOf_collision hpos (by decide) hdvd)
    have heq := (hall b hb).distinct 0 _ hi hj (hs.trans hs'.symm)
    have hzero : 2 ^ 64 % N.toNat = 0 := by
      have := congrArg UInt64.toNat heq
      rw [UInt64.toNat_zero, UInt64.toNat_ofNat'] at this
      omega
    exact hdvd (Nat.dvd_of_mod_eq_zero hzero)
  · intro hdvd b hb
    obtain ⟨h, t, w⟩ := hb.window
    exact w.noLiveOverwrite hdvd

/-- The characterisation at a power of two. -/
theorem noLiveOverwrite_iff_dvd_four :
    (∀ b : RingBuffer ℕ 4, Reachable 4 b → NoLiveOverwrite b) ↔ (4 : UInt64).toNat ∣ 2 ^ 64 :=
  noLiveOverwrite_iff_dvd 4 (by decide)

/-- **A capacity of three loses an element.**  After `2^64 - 1` pushes and as many pops, push
`7` (it goes to slot 0, the slot of count `2^64 - 1`) and then push `8`: the buffer holds one
element out of three, so the push succeeds, and it lands in slot 0 too. -/
theorem live_slot_overwritten_three :
    (∃ (b b' : RingBuffer ℕ 3) (s : Fin (3 : UInt64).toNat), Reachable 3 b ∧ b.size = 1 ∧
      liveSlot b 0 = some s ∧ b.rb s = 7 ∧ b.push 8 = some (.ok (), b') ∧ b'.rb s = 8) ∧
    ¬ ∀ N : UInt64, 1 ≤ N → ∀ b : RingBuffer ℕ N, Reachable N b → NoLiveOverwrite b := by
  have hpos : 0 < (3 : UInt64).toNat := by decide
  have key : ∃ (b b' : RingBuffer ℕ 3) (s : Fin (3 : UInt64).toNat), Reachable 3 b ∧
      b.size = 1 ∧ liveSlot b 0 = some s ∧ b.rb s = 7 ∧ b.push 8 = some (.ok (), b') ∧
        b'.rb s = 8 := by
    obtain ⟨b₀, hr₀, w₀⟩ := reachable_empty_at (T := ℕ) hpos (2 ^ 64 - 1)
    obtain ⟨b, -, hr, w, s, hs, hval⟩ := hr₀.push_ok w₀ 7 (by decide)
    obtain ⟨b', hp, -, -, s', hs', hval'⟩ := hr.push_ok w 8 (by decide)
    have hss : s' = s := Fin.ext (hs'.trans ((by decide : _ = _).trans hs.symm))
    refine ⟨b, b', s, hr, ?_, w.liveSlot_eq_some.mpr hs, hval, hp, hss ▸ hval'⟩
    exact UInt64.toNat_inj.mp (w.size_toNat.trans (by decide))
  refine ⟨key, fun hall => ?_⟩
  obtain ⟨b, b', s, hr, hsize, hslot, hval, hp, hval'⟩ := key
  have := (hall 3 (by decide) b hr).pushKeeps 8 b' hp 0 (by rw [hsize]; decide) s hslot
  omega

end CleoKernel.RingBuf
