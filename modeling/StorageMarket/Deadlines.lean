import StorageMarket.Deal
import StorageMarket.Sorted.Map

/-!
# Deadlines

The running deals by the moment they finish. A deadline is a moment and a request;
the same request may stand at several moments. Deadlines come up by moment, those of
one moment by the identifier of the request.

The requests of one moment are kept together. A moment is struck out once its last
request is gone.
-/

namespace StorageMarket

/-- The moment at which a request finishes. -/
structure Deadline where
  time : Instant
  request : RequestId
deriving DecidableEq

namespace Deadline

instance : Ord Deadline := ⟨compareLex (compareOn time) (compareOn request)⟩

instance : Std.TransOrd Deadline :=
  inferInstanceAs (Std.TransCmp (compareLex (compareOn time) (compareOn request)))

end Deadline

/-- The deadlines that have not come up yet: the requests to finish at each moment. -/
structure Deadlines where
  moments : SortedMap Instant (SortedSet RequestId)
deriving DecidableEq

namespace Deadlines

def empty : Deadlines := ⟨.empty⟩

def requestsAt (deadlines : Deadlines) (time : Instant) : SortedSet RequestId :=
  (deadlines.moments.get? time).getD .empty

instance : Membership Deadline Deadlines :=
  ⟨fun deadlines d => d.request ∈ deadlines.requestsAt d.time⟩

def schedule (deadlines : Deadlines) (time : Instant) (request : RequestId) : Deadlines :=
  ⟨deadlines.moments.insert time ((deadlines.requestsAt time).insert request)⟩

def cancel (deadlines : Deadlines) (time : Instant) (request : RequestId) : Deadlines :=
  match deadlines.moments.get? time with
  | none => deadlines
  | some requests =>
      let left := requests.erase request
      if left.isEmpty then ⟨deadlines.moments.erase time⟩
      else ⟨deadlines.moments.insert time left⟩

/-- Takes off the deadlines for which a condition on the moment holds: the requests, earliest
first, and the deadlines that are left. -/
def popWhile (deadlines : Deadlines) (due : Instant → Bool) : List RequestId × Deadlines :=
  let (taken, left) := deadlines.moments.popWhile due
  (taken.flatMap fun moment => moment.2.toList, ⟨left⟩)

def popUntil (deadlines : Deadlines) (time : Instant) : List RequestId × Deadlines :=
  deadlines.popWhile fun t => t ≤ time

def popBefore (deadlines : Deadlines) (time : Instant) : List RequestId × Deadlines :=
  deadlines.popWhile fun t => t < time

def size (deadlines : Deadlines) : Nat :=
  deadlines.moments.entries.foldr (fun moment count => moment.2.size + count) 0

def isEmpty (deadlines : Deadlines) : Bool := deadlines.moments.entries.isEmpty

/-! ## Members after a change -/

theorem mem_def {deadlines : Deadlines} {d : Deadline} :
    d ∈ deadlines ↔ d.request ∈ deadlines.requestsAt d.time := Iff.rfl

@[simp] theorem not_mem_empty {d : Deadline} : d ∉ empty := SortedSet.not_mem_empty

theorem requestsAt_schedule (deadlines : Deadlines) (time : Instant) (request : RequestId)
    (t : Instant) : (deadlines.schedule time request).requestsAt t
      = if t = time then (deadlines.requestsAt time).insert request
        else deadlines.requestsAt t := by
  rw [requestsAt, schedule, SortedMap.get?_insert]
  split <;> rfl

theorem requestsAt_cancel (deadlines : Deadlines) (time : Instant) (request : RequestId)
    (t : Instant) : (deadlines.cancel time request).requestsAt t
      = if t = time then (deadlines.requestsAt time).erase request
        else deadlines.requestsAt t := by
  rw [cancel]
  cases hmoment : deadlines.moments.get? time with
  | none =>
      have hnone : deadlines.requestsAt time = .empty := by rw [requestsAt, hmoment]; rfl
      by_cases ht : t = time
      · rw [if_pos ht, ht, hnone]
        rfl
      · rw [if_neg ht]
  | some requests =>
      have hsome : deadlines.requestsAt time = requests := by rw [requestsAt, hmoment]; rfl
      dsimp only
      rw [hsome]
      by_cases hlast : (requests.erase request).isEmpty = true
      -- the moment is struck out, so that no request is left at it
      · rw [if_pos hlast, requestsAt, SortedMap.get?_erase, SortedSet.isEmpty_iff.1 hlast]
        split <;> rfl
      · rw [if_neg hlast, requestsAt, SortedMap.get?_insert]
        split <;> rfl

@[simp] theorem mem_schedule {deadlines : Deadlines} {time : Instant} {request : RequestId}
    {d : Deadline} : d ∈ deadlines.schedule time request ↔ d = ⟨time, request⟩ ∨ d ∈ deadlines := by
  obtain ⟨t, x⟩ := d
  rw [mem_def, mem_def, requestsAt_schedule, Deadline.mk.injEq]
  by_cases ht : t = time
  · subst ht
    simp
  · simp [ht]

@[simp] theorem mem_cancel {deadlines : Deadlines} {time : Instant} {request : RequestId}
    {d : Deadline} :
    d ∈ deadlines.cancel time request ↔ d ∈ deadlines ∧ d ≠ ⟨time, request⟩ := by
  obtain ⟨t, x⟩ := d
  rw [mem_def, mem_def, requestsAt_cancel, ne_eq, Deadline.mk.injEq]
  by_cases ht : t = time
  · subst ht
    simp
  · simp [ht]

end Deadlines

end StorageMarket
