import StorageMarket.Audit

/-!
# What an audit looks at

Of a deal an audit looks at the request, the hosts, and whether the deal was running at
a moment in the past. That does not tell whether a deal that ran then has finished since.
-/

namespace StorageMarket

/-- An audit cannot tell these deals apart. -/
structure Deal.Alike (deal other : Deal) : Prop where
  request : other.request = deal.request
  hosts : other.hosts = deal.hosts
  wasRunning : ∀ time, Audit.wasRunning time other = Audit.wasRunning time deal

namespace Audit

variable {σ : Type}

theorem readSlots_congr {deal other : Deal} (h : deal.Alike other) (oracle : Oracle σ)
    (block : BlockNumber) (period : Period) (count : Nat) (slot : SlotIndex)
    (readings : Array Reading) :
    readSlots oracle block period other count slot readings
      = readSlots oracle block period deal count slot readings := by
  induction count generalizing slot readings with
  | zero => rfl
  | succ count ih =>
      rw [readSlots, readSlots, h.request, h.hosts, Deal.id, Deal.id, h.request]
      refine bind_congr fun status => ?_
      exact ih _ _

theorem readDeals_map {deals : List Deal} {f : Deal → Deal} (h : ∀ deal ∈ deals, deal.Alike (f deal))
    (oracle : Oracle σ) (block : BlockNumber) (period : Period) (readings : Array Reading) :
    readDeals oracle block period (deals.map f) readings
      = readDeals oracle block period deals readings := by
  induction deals generalizing readings with
  | nil => rfl
  | cons deal deals ih =>
      have halike := h deal List.mem_cons_self
      rw [List.map_cons, readDeals, readDeals, readSlots_congr halike, halike.request]
      refine bind_congr fun readings => ?_
      exact ih (fun deal hm => h deal (List.mem_cons_of_mem _ hm)) readings

theorem writeReports_map {deals : List Deal} {f : Deal → Deal}
    (h : ∀ deal ∈ deals, deal.Alike (f deal)) (oracle : Oracle σ) (block : BlockNumber)
    (count : Nat) (period : Period) (reports : Array Report) :
    writeReports oracle block (deals.map f) count period reports
      = writeReports oracle block deals count period reports := by
  induction count generalizing period reports with
  | zero => rfl
  | succ count ih =>
      rw [writeReports, writeReports, writeReport, writeReport, readDeals_map h]
      refine bind_congr fun report => ?_
      exact ih _ _

theorem filter_wasRunning_map {deals : List Deal} {f : Deal → Deal}
    (h : ∀ deal ∈ deals, deal.Alike (f deal)) (time : Instant) :
    (deals.map f).filter (wasRunning time) = (deals.filter (wasRunning time)).map f := by
  rw [List.filter_map]
  refine congrArg (List.map f) (List.filter_congr fun deal hm => ?_)
  exact (h deal hm).wasRunning time

/-- An audit sees the same in deals that it cannot tell apart. -/
theorem advance_map {deals : List Deal} {f : Deal → Deal} (h : ∀ deal ∈ deals, deal.Alike (f deal))
    (oracle : Oracle σ) (maxClosed : UInt64) (cursor : Option Cursor) (block : BlockNumber)
    (time : Instant) :
    advance oracle maxClosed cursor block time (deals.map f)
      = advance oracle maxClosed cursor block time deals := by
  rw [advance, advance]
  refine bind_congr fun period => ?_
  cases cursor with
  | none => rfl
  | some current =>
      have halike : ∀ deal ∈ deals.filter (wasRunning current.lastTime), deal.Alike (f deal) :=
        fun deal hm => h deal (List.mem_filter.1 hm).1
      simp only [filter_wasRunning_map h, writeReports_map halike]

end Audit

end StorageMarket
