import StorageMarket.Proofs.Archive.Consecutive
import StorageMarket.Proofs.Instant.Line

/-!
# Evenly spaced blocks

An archive does not hand over the time of every block: of a stretch it gives the first
and the last time, and a chronicle estimates the others. Where the blocks of a recording
are numbered one after the other and evenly spaced, the estimates are the recorded times.
So whatever window is asked for, each block is told as it was recorded.

Evenly spaced means that any two blocks, not only neighbours, are apart by the gap times
the number of blocks between them. Outside of leap seconds it is enough to look at
neighbours. A duration that starts or ends inside a leap second is another matter: it
does not add up.
-/

namespace StorageMarket

namespace Instant

/-- The second moment is a duration after the first, whether that is counted forwards from the
first or backwards from the second. -/
def Reaches (t : Instant) (d : Duration) (u : Instant) : Prop :=
  u.since t = d ∧ t.add? d = some u

instance (t : Instant) (d : Duration) (u : Instant) : Decidable (t.Reaches d u) :=
  inferInstanceAs (Decidable (_ ∧ _))

/-- Outside of leap seconds time adds up. -/
theorem reaches_iff {t u : Instant} (ht : t.Regular) (hu : u.Regular) {d : Duration} :
    t.Reaches d u ↔ u.line = t.line + d.nanos := by
  rw [Reaches, since_eq_line ht hu, add?_eq_ofNanos? ht]
  constructor
  · rintro ⟨rfl, _⟩
    show u.line = t.line + (u.line - t.line)
    omega
  · intro h
    refine ⟨?_, ?_⟩
    · obtain ⟨nanos⟩ := d
      have hd : u.line - t.line = nanos := by
        have h : u.line = t.line + nanos := h
        omega
      rw [hd]
    · rw [← h, ofNanos?_line hu]

end Instant

namespace Recording

/-- Neighbouring blocks have neighbouring numbers, and their times are so many milliseconds
apart. -/
def Steady (recording : Recording) (gap : Nat) : Prop :=
  recording.blocks.IsChain fun a b =>
    b.number.toNat = a.number.toNat + 1 ∧ a.time.Reaches (.ofMillis gap) b.time

instance (recording : Recording) (gap : Nat) : Decidable (recording.Steady gap) :=
  inferInstanceAs (Decidable (List.IsChain _ _))

/-- Blocks are numbered one after the other, and from any block to any later one it takes so many
milliseconds for each step. -/
structure EvenlySpaced (recording : Recording) (gap : Nat) : Prop where
  numbers : recording.blocks.IsChain fun a b => b.number.toNat = a.number.toNat + 1
  times : ∀ a ∈ recording.blocks, ∀ b ∈ recording.blocks, a.number ≤ b.number →
    a.time.Reaches (.ofMillis (gap * (b.number.toNat - a.number.toNat : Nat))) b.time

/-- Along steady blocks the times lie on one straight line. -/
theorem exists_line {blocks : List BlockStamp} {gap : Nat}
    (hsteady : blocks.IsChain fun a b =>
      b.number.toNat = a.number.toNat + 1 ∧ a.time.Reaches (.ofMillis gap) b.time)
    (hregular : ∀ b ∈ blocks, b.time.Regular) :
    ∃ origin : Int, ∀ b ∈ blocks, b.time.line = origin + gap * b.number.toNat * 1000000 := by
  induction blocks with
  | nil => exact ⟨0, fun b hb => absurd hb List.not_mem_nil⟩
  | cons a blocks ih =>
      cases blocks with
      | nil =>
          refine ⟨a.time.line - gap * a.number.toNat * 1000000, fun b hb => ?_⟩
          rw [List.mem_singleton.1 hb]
          omega
      | cons b rest =>
          obtain ⟨⟨hnumber, hreaches⟩, hrest⟩ := List.isChain_cons_cons.1 hsteady
          have hmem : b ∈ b :: rest := List.mem_cons_self
          obtain ⟨origin, hline⟩ := ih hrest fun c hc => hregular c (List.mem_cons_of_mem _ hc)
          refine ⟨origin, fun c hc => ?_⟩
          rcases List.mem_cons.1 hc with rfl | hc
          · have hb := hline b hmem
            rw [Instant.reaches_iff (hregular c hc) (hregular b (List.mem_cons_of_mem _ hmem))]
              at hreaches
            have hgap : (Duration.ofMillis gap).nanos = gap * 1000000 := rfl
            rw [hnumber, Int.natCast_add, Int.mul_add, Int.add_mul] at hb
            omega
          · exact hline c hc

/-- Outside of leap seconds steady blocks are evenly spaced. -/
theorem Steady.evenlySpaced {recording : Recording} {gap : Nat} (h : recording.Steady gap)
    (hregular : ∀ b ∈ recording.blocks, b.time.Regular) : recording.EvenlySpaced gap where
  numbers := h.imp fun _ _ => And.left
  times a ha b hb hle := by
    obtain ⟨origin, hline⟩ := exists_line h hregular
    obtain ⟨steps, hsteps⟩ := Nat.exists_eq_add_of_le (UInt64.le_iff_toNat_le.1 hle)
    rw [Instant.reaches_iff (hregular a ha) (hregular b hb), hline a ha, hline b hb, hsteps,
      Nat.add_sub_cancel_left, Int.natCast_add, Int.mul_add, Int.add_mul, Int.add_assoc]
    rfl

end Recording

namespace Archive

variable {archive : Archive} {gap : Nat}

theorem millis_ofMillis (millis : Int) : (Duration.ofMillis millis).millis = millis :=
  Int.mul_tdiv_cancel millis (by decide)

/-- In an evenly spaced recording the time of a block between two others is estimated right. -/
theorem estimate_eq {recording : Recording} (h : recording.InOrder)
    (hspaced : recording.EvenlySpaced gap) {first last b : BlockStamp}
    (hfirst : first ∈ recording.blocks) (hlast : last ∈ recording.blocks)
    (hb : b ∈ recording.blocks) (hlo : first.number ≤ b.number) (hhi : b.number ≤ last.number)
    {stretch : Stretch} (hspans : Spans stretch first last) :
    stretch.estimate b.number = b.time := by
  rw [Stretch.estimate, hspans.lastNumber]
  by_cases heq : b.number = last.number
  · rw [if_pos heq, hspans.lastTime, h.eq_of_number_eq hb hlast heq]
  · have hle := UInt64.le_iff_toNat_le.1 hlo
    have hlt : b.number.toNat < last.number.toNat :=
      UInt64.lt_iff_toNat_lt.1 (UInt64.lt_of_le_of_ne hhi heq)
    have hlength : stretch.times.length.millis
        = gap * (last.number.toNat - first.number.toNat : Nat) := by
      rw [Window.length, hspans.lastTime, hspans.firstTime,
        (hspaced.times first hfirst last hlast (UInt64.le_trans hlo hhi)).1, millis_ofMillis]
    have hoffset : stretch.offsetMillis b.number
        = gap * (b.number.toNat - first.number.toNat : Nat) := by
      have hgaps : ((last.number.toNat - first.number.toNat : Nat) : Int) ≠ 0 := by omega
      rw [Stretch.offsetMillis, hlength, BlockRange.gaps, hspans.firstNumber, hspans.lastNumber,
        Int.mul_right_comm, Int.mul_tdiv_cancel _ hgaps]
    rw [if_neg heq, hoffset, hspans.firstTime, Instant.addOrLatest,
      (hspaced.times first hfirst b hb hlo).2, Option.getD_some]

/-- Over an evenly spaced recording a chronicle tells each block of its window as it was recorded. -/
theorem Tells.blocks_eq (h : archive.recording.InOrder)
    (hspaced : archive.recording.EvenlySpaced gap) {window : Window} {told : Chronicle}
    (htells : archive.Tells window told) :
    told.blocks = (archive.blocksIn window).map archive.recording.blockAt := by
  rcases htells.stretch with ⟨hnone, hs⟩ | ⟨first, last, stretch, hfirst, hlast, hspans, hs⟩
  · rw [Chronicle.blocks, hs, hnone]
    rfl
  · rw [htells.blocks_eq_map h hspaced.numbers hs]
    refine List.map_congr_left fun b hb => ?_
    have hin (b : BlockStamp) (hb : b ∈ archive.blocksIn window) : b ∈ archive.recording.blocks :=
      ((mem_blocksIn h).1 hb).1
    have hbounds := Recording.number_bounds (ordered_blocksIn h window) hfirst hlast hb
    rw [estimate_eq h hspaced (hin first (List.mem_of_head? hfirst))
      (hin last (List.mem_of_getLast? hlast)) (hin b hb) hbounds.1 hbounds.2 hspans]
    rfl

end Archive

end StorageMarket
