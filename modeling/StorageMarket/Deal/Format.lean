import StorageMarket.Deal
import StorageMarket.Request.Format

/-!
# Deals as JSON
-/

namespace StorageMarket

/-- The hosts of a request, as JSON: the filled slots with their hosts, and every slot that was
ever filled, both in ascending order. -/
def Occupancy.json (hosts : Occupancy) : Json :=
  .object [
    ("current", .object (hosts.current.entries.map fun (slot, host) =>
      (Decimal.text slot.toNat, host.json))),
    ("ever_filled", .array (hosts.everFilled.toList.map jsonUInt64))]

def Deal.json (deal : Deal) : Json :=
  .object [
    ("request", deal.request.json),
    ("state", deal.stage.json),
    ("created_block", jsonUInt64 deal.createdBlock),
    ("created_at", deal.createdAt.json),
    ("hosts", deal.hosts.json)]

end StorageMarket
