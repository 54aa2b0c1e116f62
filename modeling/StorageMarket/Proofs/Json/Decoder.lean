import StorageMarket.Json.Decoder
import StorageMarket.Proofs.Json.Text

/-!
# Decoding what was written

A record is written as an object of all its fields in their order. `Fields.Yields` says
that the fields of a record take given members, one by one, and make a given value of
them; it is built up along the fields, and carries over to whatever reads by fields:
records, tagged records, and records that hold the fields of another one.
-/

namespace StorageMarket.Json

/-! ## Plain values -/

theorem toUInt64?_ofNat (u : UInt64) : (Numeral.ofNat u.toNat).toUInt64? = some u := by
  simp only [Numeral.toUInt64?, Numeral.ofNat, Decimal.value_digits, if_pos u.toNat_lt_size,
    UInt64.ofNat_toNat]

theorem decodeUInt64_number (u : UInt64) (depth : Nat) :
    decodeUInt64 depth (number u.toNat).toOutline = .ok u := by
  simp only [decodeUInt64, toOutline, toUInt64?_ofNat]

theorem decodeBool_bool (b : Bool) (depth : Nat) :
    decodeBool depth (bool b).toOutline = .ok b := rfl

theorem decodeString_string (s : String) (depth : Nat) :
    decodeString depth (string s).toOutline = .ok s := rfl

theorem decodeText_string {α : Type} {read : List Char → Except Mismatch α} {cs : List Char}
    {a : α} (h : read cs = .ok a) (depth : Nat) :
    decodeText read depth (string (String.ofList cs)).toOutline = .ok a := by
  simp only [decodeText, decodeString_string, except_ok_bind, String.toList_ofList, h]
  rfl

section Lists

variable {α : Type} {decode : Decoder α} {write : α → Json}

theorem decode_toItems {depth : Nat} {l : List α}
    (h : ∀ a ∈ l, decode depth (write a).toOutline = .ok a) :
    (toItems (l.map write)).decode decode depth = .ok l := by
  induction l with
  | nil => rfl
  | cons a l ih =>
      rw [List.map_cons, toItems, Items.decode, h a List.mem_cons_self, except_ok_bind,
        ih fun b hb => h b (List.mem_cons_of_mem a hb)]
      rfl

theorem decodeList_array {depth : Nat} {l : List α}
    (h : ∀ a ∈ l, decode (depth + 1) (write a).toOutline = .ok a) :
    decodeList decode depth (array (l.map write)).toOutline = .ok l :=
  decode_toItems h

end Lists

/-! ## Fields -/

namespace Fields

/-- Members are taken one by one, from one state to another. -/
def Reads {σ : Type} (read : String → Nat → Outline → σ → Option (Except Fault σ)) (depth : Nat) :
    List (String × Json) → σ → σ → Prop
  | [], s, t => s = t
  | (name, value) :: members, s, t =>
      ∃ s', read name depth value.toOutline s = some (.ok s') ∧ Reads read depth members s' t

section Reading

variable {σ τ : Type} {read : String → Nat → Outline → σ → Option (Except Fault σ)}
  {read' : String → Nat → Outline → τ → Option (Except Fault τ)} {depth : Nat}
  {members others : List (String × Json)} {s t u : σ}

theorem Reads.append (h : Reads read depth members s t) (h' : Reads read depth others t u) :
    Reads read depth (members ++ others) s u := by
  induction members generalizing s with
  | nil =>
      cases h
      exact h'
  | cons member members ih =>
      obtain ⟨s', hread, h⟩ := h
      exact ⟨s', hread, ih h⟩

/-- Members are taken in the same way where the states are a part of larger ones. -/
theorem Reads.lift {f : σ → τ}
    (hread : ∀ name ∈ members.map Prod.fst, ∀ value s s', read name depth value s = some (.ok s') →
      read' name depth value (f s) = some (.ok (f s')))
    (h : Reads read depth members s t) : Reads read' depth members (f s) (f t) := by
  induction members generalizing s with
  | nil =>
      cases h
      rfl
  | cons member members ih =>
      obtain ⟨s', hmember, h⟩ := h
      refine ⟨f s', hread _ List.mem_cons_self _ _ _ hmember, ih (fun name hname => ?_) h⟩
      exact hread name (List.mem_cons_of_mem _ hname)

end Reading

variable {α β : Type} {depth : Nat} {members others : List (String × Json)}

/-- The fields take the members, in this order and no others, and make the value of them. -/
structure Yields (fields : Fields α) (depth : Nat) (members : List (String × Json)) (a : α) :
    Prop where
  foreign : ∀ name ∉ members.map Prod.fst, ∀ depth value s, fields.read name depth value s = none
  reads : ∃ s, Reads fields.read depth members fields.start s ∧
    ∀ absent, fields.finish absent s = .ok a

/-! ### Building records up -/

theorem yields_single (name : String) (default? : Option α) {decode : Decoder α} {value : Json}
    {a : α} (h : decode depth value.toOutline = .ok a) :
    (single name decode default?).Yields depth [(name, value)] a where
  foreign := by
    intro other hother depth value s
    have hne : other ≠ name := by simpa using hother
    simp [single, hne]
  reads := by
    refine ⟨some a, ⟨some a, ?_, rfl⟩, fun absent => rfl⟩
    simp [single, h, Except.map]

theorem Yields.map {fields : Fields α} {a : α} (h : fields.Yields depth members a) (f : α → β) :
    (fields.map f).Yields depth members (f a) where
  foreign := h.foreign
  reads := by
    obtain ⟨s, hs, hfinish⟩ := h.reads
    refine ⟨s, hs, fun absent => ?_⟩
    show (fields.finish absent s).map f = _
    rw [hfinish]
    rfl

/-- Two groups of fields take their members one group after the other. -/
theorem Yields.apply {f : Fields (α → β)} {fields : Fields α} {g : α → β} {a : α}
    (hf : f.Yields depth members g) (hfields : fields.Yields depth others a)
    (hdisjoint : ∀ name ∈ others.map Prod.fst, name ∉ members.map Prod.fst) :
    (f.apply fields).Yields depth (members ++ others) (g a) where
  foreign := by
    intro name hname depth value s
    rw [List.map_append, List.mem_append, not_or] at hname
    simp [Fields.apply, both, hf.foreign name hname.1, hfields.foreign name hname.2]
  reads := by
    obtain ⟨s, hs, hfinish⟩ := hf.reads
    obtain ⟨t, ht, hfinish'⟩ := hfields.reads
    -- the second group waits at its start, and then takes what the first one does not know
    refine ⟨(s, t), Reads.append (t := (s, fields.start)) ?_ ?_, ?_⟩
    · refine hs.lift (f := fun s => (s, fields.start)) ?_
      intro name _ value s s' hread
      simp [Fields.apply, both, hread, Except.map]
    · refine ht.lift (f := fun t => (s, t)) ?_
      intro name hname value t t' hread
      simp [Fields.apply, both, hf.foreign name (hdisjoint name hname), hread, Except.map]
    · intro absent
      simp only [Fields.apply, both, hfinish, hfinish', except_ok_bind]
      rfl

/-- A record takes one more field, which may or may not be left out. -/
theorem Yields.field {f : Fields (α → β)} {g : α → β} {decode : Decoder α} {value : Json} {a : α}
    (hf : f.Yields depth members g) (name : String) (default? : Option α)
    (h : decode depth value.toOutline = .ok a) (hname : name ∉ members.map Prod.fst) :
    (f.apply (single name decode default?)).Yields depth (members ++ [(name, value)]) (g a) := by
  refine hf.apply (yields_single name default? h) ?_
  intro other hother
  rw [List.map_singleton, List.mem_singleton] at hother
  rwa [hother]

/-! ### Reading records -/

theorem readMembers_toMembers {fields : Fields α} {s t : fields.State}
    (h : Reads fields.read depth members s t) :
    fields.readMembers depth (toMembers members) s = .ok t := by
  induction members generalizing s with
  | nil =>
      cases h
      rfl
  | cons member members ih =>
      obtain ⟨s', hread, h⟩ := h
      rw [toMembers, readMembers]
      simp only [except_ok_bind, hread, ih h]

theorem Yields.decode_object {fields : Fields α} {a : α}
    (h : fields.Yields (depth + 1) members a) :
    fields.decode depth (object members).toOutline = .ok a := by
  obtain ⟨s, hs, hfinish⟩ := h.reads
  simp only [toOutline, decode, readMembers_toMembers hs, except_ok_bind, hfinish]

end Fields

/-! ## Content that is kept aside -/

theorem Numeral.gather_digits {ds : List Char} {n : Nat}
    (h : Nat.ofDigitChars 10 ds n < UInt64.size) :
    Numeral.gather n ds = (Nat.ofDigitChars 10 ds n, []) := by
  induction ds generalizing n with
  | nil => rfl
  | cons d ds ih =>
      rw [Nat.ofDigitChars_cons, Nat.mul_comm] at h
      rw [Numeral.gather, if_pos (Nat.lt_of_le_of_lt (Decimal.ofDigitChars_le ds _) h), ih h,
        Nat.ofDigitChars_cons, Nat.mul_comm]

theorem Numeral.round53_le (n : Nat) : Numeral.round53 n ≤ 2 * n := by
  rw [Numeral.round53]
  by_cases hsmall : n < 1 <<< 53
  · rw [if_pos hsmall]
    omega
  · rw [if_neg hsmall]
    have hn : n ≠ 0 := by
      rintro rfl
      exact hsmall (by decide)
    -- the last digit that is kept stands for no more than the number itself
    have hunit : 1 <<< (Nat.log2 n - 52) ≤ n := by
      rw [Nat.one_shiftLeft]
      exact Nat.le_trans (Nat.pow_le_pow_right (by decide) (Nat.sub_le _ _)) (Nat.log2_self_le hn)
    have hkept : (n >>> (Nat.log2 n - 52)) <<< (Nat.log2 n - 52) ≤ n := by
      rw [Nat.shiftRight_eq_div_pow, Nat.shiftLeft_eq]
      exact Nat.div_mul_le_self _ _
    have hup : (n >>> (Nat.log2 n - 52) + 1) <<< (Nat.log2 n - 52) ≤ 2 * n := by
      rw [Nat.shiftLeft_eq] at hkept hunit ⊢
      rw [Nat.add_mul]
      omega
    dsimp only
    split <;> omega

theorem Numeral.isBeyondDouble_ofNat (u : UInt64) :
    (Numeral.ofNat u.toNat).isBeyondDouble = false := by
  have hestimate : (Numeral.ofNat u.toNat).estimate = (u.toNat, 0) := by
    have hvalue : Nat.ofDigitChars 10 (Decimal.digits u.toNat) 0 = u.toNat := Decimal.value_digits _
    have hlt := u.toNat_lt_size
    rw [← hvalue] at hlt
    simp [Numeral.estimate, Numeral.ofNat, Numeral.gather_digits hlt, Numeral.gather, hvalue]
  have hround : Numeral.round53 u.toNat ≤ 2 * UInt64.size :=
    Nat.le_trans (Numeral.round53_le _) (Nat.mul_le_mul_left 2 (Nat.le_of_lt u.toNat_lt_size))
  have hrange : Numeral.round53 u.toNat * Numeral.round53 (Nat.pow 10 0)
      < 1 <<< 1024 - 1 <<< 970 :=
    Nat.lt_of_le_of_lt (Nat.mul_le_mul_right _ hround) (by decide +kernel)
  rw [Numeral.isBeyondDouble, hestimate]
  simp only [Int.toNat_zero, decide_eq_false (Nat.not_le.2 hrange)]
  simp

@[simp] theorem inspect_number (u : UInt64) (depth : Nat) :
    (number u.toNat).toOutline.inspect depth = .ok () := by
  simp [toOutline, Outline.inspect, Numeral.isBeyondDouble_ofNat]

@[simp] theorem inspect_bool (b : Bool) (depth : Nat) : (bool b).toOutline.inspect depth = .ok () := rfl

@[simp] theorem inspect_string (s : String) (depth : Nat) :
    (string s).toOutline.inspect depth = .ok () := rfl

def Plain (depth : Nat) (members : List (String × Json)) : Prop :=
  ∀ member ∈ members, member.2.toOutline.inspect depth = .ok ()

@[simp] theorem plain_nil (depth : Nat) : Plain depth [] := by
  intro member hmember
  cases hmember

@[simp] theorem plain_cons {depth : Nat} {name : String} {value : Json}
    {members : List (String × Json)} :
    Plain depth ((name, value) :: members) ↔
      value.toOutline.inspect depth = .ok () ∧ Plain depth members :=
  List.forall_mem_cons

theorem inspect_toMembers {depth : Nat} {members : List (String × Json)} (h : Plain depth members) :
    (toMembers members).inspect depth = .ok () := by
  induction members with
  | nil => rfl
  | cons member members ih =>
      simp only [toMembers, Members.inspect, except_ok_bind, h member List.mem_cons_self]
      exact ih fun member hmember => h member (List.mem_cons_of_mem _ hmember)

theorem inspect_object {depth : Nat} {members : List (String × Json)}
    (hdepth : depth + 1 < nestingLimit) (h : Plain (depth + 1) members) :
    (object members).toOutline.inspect depth = .ok () := by
  simp only [toOutline, Outline.inspect, checkNesting, if_pos hdepth, except_ok_bind,
    inspect_toMembers h]

theorem takeTag_toMembers {κ : Type} {tag : String} {decode : Decoder κ} {depth : Nat} {k : κ}
    {members : List (String × Json)} (hplain : Plain depth members)
    (htag : tag ∉ members.map Prod.fst) :
    (toMembers members).takeTag tag decode depth (some k) = .ok (some k, toMembers members) := by
  induction members with
  | nil => rfl
  | cons member members ih =>
      rw [List.map_cons, List.mem_cons, not_or] at htag
      rw [toMembers, Members.takeTag]
      simp only [except_ok_bind, if_neg (Ne.symm htag.1), hplain member List.mem_cons_self,
        ih (fun member hmember => hplain member (List.mem_cons_of_mem _ hmember)) htag.2]
      rfl

/-- A tagged record whose tag is written first is read back. -/
theorem decodeTagged_object {κ α : Type} {tag : String} {kind : Decoder κ} {fields : κ → Fields α}
    {depth : Nat} {value : Json} {k : κ} {members : List (String × Json)} {a : α}
    (hkind : kind (depth + 1) value.toOutline = .ok k)
    (h : (fields k).Yields (depth + 1) members a)
    (hplain : Plain (depth + 1) members) (htag : tag ∉ members.map Prod.fst) :
    decodeTagged tag kind fields depth (object ((tag, value) :: members)).toOutline = .ok a := by
  have hdecode := h.decode_object
  rw [toOutline] at hdecode
  simp only [toOutline, toMembers, decodeTagged, Members.takeTag, except_ok_bind, if_pos, hkind,
    takeTag_toMembers hplain htag, Decoder.inContent, hdecode]

theorem readOwn_others {α : Type} {fields : Fields α} {depth : Nat} (s : fields.State)
    {others : List (String × Json)}
    (hothers : ∀ name ∈ others.map Prod.fst, ∀ depth value s, fields.read name depth value s = none)
    (hplain : Plain depth others) :
    fields.readOwn depth (toMembers others) s = .ok (s, toMembers others) := by
  induction others with
  | nil => rfl
  | cons member others ih =>
      rw [toMembers, Fields.readOwn]
      simp only [except_ok_bind, hothers member.1 List.mem_cons_self,
        hplain member List.mem_cons_self,
        ih (fun name hname => hothers name (List.mem_cons_of_mem _ hname))
          (fun other hother => hplain other (List.mem_cons_of_mem _ hother))]
      rfl

theorem readOwn_toMembers {α : Type} {fields : Fields α} {depth : Nat} {s t : fields.State}
    {members others : List (String × Json)} (h : Fields.Reads fields.read depth members s t)
    (hothers : ∀ name ∈ others.map Prod.fst, ∀ depth value s, fields.read name depth value s = none)
    (hplain : Plain depth others) :
    fields.readOwn depth (toMembers (members ++ others)) s = .ok (t, toMembers others) := by
  induction members generalizing s with
  | nil =>
      cases h
      exact readOwn_others _ hothers hplain
  | cons member members ih =>
      obtain ⟨s', hread, h⟩ := h
      rw [List.cons_append, toMembers, Fields.readOwn]
      simp only [except_ok_bind, hread, ih h]

/-- A record that holds the fields of a second one after its own is read back. -/
theorem decodeJoined_object {α β γ : Type} {combine : α → β → γ} {own : Fields α}
    {inner : Fields β} {depth : Nat} {members others : List (String × Json)} {a : α} {b : β}
    (hown : own.Yields (depth + 1) members a) (hinner : inner.Yields (depth + 1) others b)
    (hdisjoint : ∀ name ∈ others.map Prod.fst, name ∉ members.map Prod.fst)
    (hplain : Plain (depth + 1) others) :
    decodeJoined combine own inner depth (object (members ++ others)).toOutline
      = .ok (combine a b) := by
  obtain ⟨s, hs, hfinish⟩ := hown.reads
  have hread := readOwn_toMembers hs (fun name hname => hown.foreign name (hdisjoint name hname))
    hplain
  have hdecode := hinner.decode_object
  rw [toOutline] at hdecode
  simp only [toOutline, decodeJoined, hread, except_ok_bind, hfinish, Decoder.inContent, hdecode]
  rfl

/-! ## Whole texts -/

/-- What is written for a value is read as its outline. -/
theorem readText_compact {α : Type} {decode : Decoder α} {json : Json} {a : α}
    (h : decode 0 json.toOutline = .ok a) : readText decode json.compact = .ok a := by
  simp only [readText, ofText_compact, h, except_ok_bind]
  rfl

/-- Reads a text and writes what it holds. -/
def rewrite {α : Type} (decode : Decoder α) (write : α → Json) (text : List Char) :
    Except Fault (List Char) :=
  (readText decode text).map fun a => (write a).compact

/-- Writing and reading fit together for the values in question: what is written reads back as the
same value, different values are written differently, and a text that holds such a value is
rewritten in a form that rewriting leaves alone. -/
structure RoundTrips {α : Type} (decode : Decoder α) (write : α → Json) (Covers : α → Prop) :
    Prop where
  reads_back : ∀ a, Covers a → readText decode (write a).compact = .ok a
  injective : ∀ a b, Covers a → Covers b → (write a).compact = (write b).compact → a = b
  idempotent : ∀ text a, readText decode text = .ok a → Covers a →
    ∃ written, rewrite decode write text = .ok written ∧ rewrite decode write written = .ok written

theorem roundTrips_of_decode {α : Type} {decode : Decoder α} {write : α → Json}
    {Covers : α → Prop} (h : ∀ a, Covers a → decode 0 (write a).toOutline = .ok a) :
    RoundTrips decode write Covers where
  reads_back a ha := readText_compact (h a ha)
  injective := by
    intro a b ha hb hsame
    have hread := readText_compact (h a ha)
    rw [hsame, readText_compact (h b hb)] at hread
    exact (Except.ok.inj hread).symm
  idempotent := by
    intro text a hread ha
    refine ⟨(write a).compact, ?_, ?_⟩
    · rw [rewrite, hread]
      rfl
    · rw [rewrite, readText_compact (h a ha)]
      rfl

end StorageMarket.Json
