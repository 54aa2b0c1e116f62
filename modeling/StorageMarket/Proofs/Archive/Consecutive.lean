import Mathlib.Data.List.Chain
import StorageMarket.Proofs.Archive.Telling

/-!
# Recordings that leave out no block

When the blocks of a recording are numbered one after the other, so are those of any
window. A chronicle then tells just these blocks, each with the events that were recorded
for it. Only the times are its own.
-/

namespace StorageMarket

namespace Recording

/-- Neighbouring blocks have neighbouring numbers. -/
def Consecutive (recording : Recording) : Prop :=
  recording.blocks.IsChain fun a b => b.number.toNat = a.number.toNat + 1

instance (recording : Recording) : Decidable recording.Consecutive :=
  inferInstanceAs (Decidable (List.IsChain _ _))

def blockAt (recording : Recording) (stamp : BlockStamp) : Block where
  number := stamp.number
  time := stamp.time
  events := (recording.events.filter fun e => e.block = stamp.number).mergeSort Event.precedes

end Recording

namespace Archive

variable {archive : Archive}

theorem numbers_eq_range' {blocks : List BlockStamp}
    (h : blocks.IsChain fun a b => b.number.toNat = a.number.toNat + 1) {first : BlockStamp}
    (hfirst : blocks.head? = some first) :
    blocks.map (fun b => b.number.toNat) = List.range' first.number.toNat blocks.length := by
  induction blocks generalizing first with
  | nil => exact nomatch hfirst
  | cons a blocks ih =>
      cases hfirst
      cases blocks with
      | nil => rfl
      | cons b rest =>
          obtain ⟨hnumber, hrest⟩ := List.isChain_cons_cons.1 h
          rw [List.map_cons, ih hrest rfl, hnumber]
          rfl

theorem consecutive_blocksIn (hnumbers : archive.recording.Consecutive) (window : Window) :
    (archive.blocksIn window).IsChain fun a b => b.number.toNat = a.number.toNat + 1 := by
  have hafter := List.IsChain.suffix hnumbers
    (List.dropWhile_suffix fun block => decide (block.time ≤ window.start))
  rw [← List.takeWhile_append_dropWhile (p := fun block => decide (block.time ≤ window.stop))
    (l := archive.recording.blocks.dropWhile _)] at hafter
  exact hafter.left_of_append

/-- A stretch has as many blocks as the window, if none is left out. -/
theorem size_eq_length (hnumbers : archive.recording.Consecutive) {window : Window}
    {first last : BlockStamp} (hfirst : (archive.blocksIn window).head? = some first)
    (hlast : (archive.blocksIn window).getLast? = some last) {stretch : Stretch}
    (hspans : Spans stretch first last) :
    stretch.blocks.size = (archive.blocksIn window).length := by
  have hrange := numbers_eq_range' (consecutive_blocksIn hnumbers window) hfirst
  have hend := congrArg List.getLast? hrange
  have hpos : 0 < (archive.blocksIn window).length :=
    List.length_pos_of_mem (List.mem_of_head? hfirst)
  rw [List.getLast?_map, hlast, Option.map_some, List.getLast?_range', if_neg (by omega),
    Option.some.injEq] at hend
  rw [BlockRange.size, BlockRange.gaps, hspans.firstNumber, hspans.lastNumber]
  omega

/-- The events of a block are those that were recorded, whatever window it is told in. -/
theorem Tells.filter_events (h : archive.recording.InOrder) {window : Window} {told : Chronicle}
    (htells : archive.Tells window told) {b : BlockStamp} (hb : b ∈ archive.blocksIn window) :
    told.events.filter (fun e => e.block = b.number) = (archive.recording.blockAt b).events := by
  obtain ⟨hm, htime⟩ := (mem_blocksIn h).1 hb
  rw [htells.events, ← Event.mergeSort_filter, Recording.eventsBetween, List.filter_filter,
    Recording.blockAt]
  refine congrArg (List.mergeSort · Event.precedes) (List.filter_congr fun e _ => ?_)
  by_cases hblock : e.block = b.number
  · rw [hblock, h.timeOf?_of_mem hm, Option.any_some, decide_eq_true htime, Bool.and_true]
  · rw [decide_eq_false hblock, Bool.false_and]

/-- A chronicle tells each block of its window, with the events that were recorded for it. -/
theorem Tells.blocks_eq_map (h : archive.recording.InOrder)
    (hnumbers : archive.recording.Consecutive) {window : Window} {told : Chronicle}
    (htells : archive.Tells window told) {stretch : Stretch} (hs : told.stretch = some stretch) :
    told.blocks = (archive.blocksIn window).map fun stamp =>
      { archive.recording.blockAt stamp with time := stretch.estimate stamp.number } := by
  rcases htells.stretch with ⟨_, hs'⟩ | ⟨first, last, stretch', hfirst, hlast, hspans, hs'⟩
  · rw [hs] at hs'
    exact nomatch hs'
  · rw [hs] at hs'
    cases hs'
    rw [htells.orderly.blocks_eq_map hs, size_eq_length hnumbers hfirst hlast hspans,
      hspans.firstNumber, ← numbers_eq_range' (consecutive_blocksIn hnumbers window) hfirst,
      List.map_map]
    refine List.map_congr_left fun b hb => ?_
    rw [Function.comp_apply, Chronicle.blockOf, UInt64.ofNat_toNat, htells.filter_events h hb]
    rfl

end Archive

end StorageMarket
