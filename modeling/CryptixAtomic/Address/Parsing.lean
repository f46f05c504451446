import CryptixAtomic.Address.Bech32

/-!
# Parsing of untrusted addresses

Every step up to the checksum either rejects a text or describes it completely: the prefix,
a colon, and the letters of some symbols and of their checksum. Nothing checks that the
symbols fill a byte, or that their number fits their version, before the first byte is read
and the length is asserted. The Borsh decoder has the same assertion.
-/
namespace CryptixAtomic.Addresses

open Foundation Reader List Option

theorem symbolOf_table : ∀ n < 256, (symbolOf (UInt8.ofNat n)).toOption.all fun c =>
    decide (c.toNat < 2 ^ 5 ∧ letterOf c = some (UInt8.ofNat n)) := by
  decide +kernel

theorem letterOf_table : ∀ n < 256, (letterOf (UInt8.ofNat n)).all fun b =>
    decide (symbolOf b = .ok (UInt8.ofNat n)) := by
  decide +kernel

theorem symbolOf_eq_ok {b c : UInt8} (h : symbolOf b = .ok c) :
    c.toNat < 2 ^ 5 ∧ letterOf c = some b := by
  have htable := symbolOf_table b.toNat b.toNat_lt
  rw [UInt8.ofNat_toNat, h] at htable
  exact of_decide_eq_true htable

theorem symbolOf_of_letterOf {b c : UInt8} (h : letterOf c = some b) : symbolOf b = .ok c := by
  have htable := letterOf_table c.toNat c.toNat_lt
  rw [UInt8.ofNat_toNat, h] at htable
  exact of_decide_eq_true htable

theorem mapM_symbolOf_eq_ok {letters symbols : List UInt8} :
    letters.mapM symbolOf = .ok symbols ↔ symbols.mapM letterOf = some letters := by
  rw [mapM_eq_ok_iff, mapM_eq_some_iff]
  constructor
  · intro h
    apply h.flip.imp
    exact fun c b hc => (symbolOf_eq_ok hc).2
  · intro h
    apply h.flip.imp
    exact fun b c hb => symbolOf_of_letterOf hb

theorem digits_of_letters {letters symbols : List UInt8}
    (h : symbols.mapM letterOf = some letters) : Digits 5 symbols := by
  have hpairs := mapM_eq_some_iff.mp h
  clear h
  induction hpairs with
  | nil => simp [Digits]
  | cons hc _ ih =>
    exact forall_mem_cons.mpr ⟨(symbolOf_eq_ok (symbolOf_of_letterOf hc)).1, ih⟩

theorem polymodStep_lt (c : ℕ) (d : UInt8) : polymodStep c d < 2 ^ 40 := by
  have hxor : ∀ {x : ℕ} (b : Bool) (y : ℕ), x < 2 ^ 40 → y < 2 ^ 40 →
      (if b then x ^^^ y else x) < 2 ^ 40 := by
    intro x b y hx hy
    split_ifs
    · exact Nat.xor_lt_two_pow hx hy
    · exact hx
  have hshift : (c &&& 0x07ffffffff) <<< 5 < 2 ^ 40 := by
    have hle : c &&& 0x07ffffffff ≤ 0x07ffffffff := Nat.and_le_right
    rw [Nat.shiftLeft_eq]
    omega
  have hd : d.toNat < 2 ^ 40 := d.toNat_lt.trans (by norm_num)
  unfold polymodStep
  exact hxor _ _ (hxor _ _ (hxor _ _ (hxor _ _ (hxor _ _ (Nat.xor_lt_two_pow hshift hd)
    (by norm_num)) (by norm_num)) (by norm_num)) (by norm_num)) (by norm_num)

theorem polymod_lt (values : List UInt8) : polymod values < 2 ^ 40 := by
  apply Nat.xor_lt_two_pow _ (by norm_num)
  induction values using reverseRecOn with
  | nil => norm_num
  | append_singleton values d =>
    rw [foldl_append]
    exact polymodStep_lt _ d

theorem checksum_eq_iff {payload fivebitPrefix bytes : List UInt8} (hbytes : bytes.length = 5) :
    checksum payload fivebitPrefix = fromBeBytes bytes ↔
      toBits 40 (checksum payload fivebitPrefix) = digitBits 8 bytes := by
  have hbits := toBits_fromBeBytes bytes
  have hlt := fromBeBytes_lt bytes
  rw [hbytes] at hbits hlt
  rw [← hbits]
  constructor
  · intro h
    rw [h]
  · exact toBits_inj (polymod_lt _) hlt

theorem conv5to8_spec {symbols : List UInt8} (h : Digits 5 symbols) :
    ∃ bytes rest, conv5to8 symbols = some bytes ∧ bytes.length = symbols.length * 5 / 8 ∧
      digitBits 8 bytes ++ rest = digitBits 5 symbols := by
  obtain ⟨r, hrun, hholds, -, hcells, hidx⟩ := @regroup_spec 16 5 8 (symbols.length * 5 / 8)
    (by norm_num) (by norm_num) (by norm_num) symbols h le_rfl
  refine ⟨r.cells, toBits r.bits r.buff, ?_, hcells, ?_⟩
  · rw [conv5to8, hrun]
    rfl
  · have hcontent := hholds.content
    rwa [take_of_length_le (by omega)] at hcontent

/-- The letters of some symbols and of their checksum. -/
structure SealedLetters (p : Prefix) (symbols tag letters : List UInt8) : Prop where
  letters : (symbols ++ tag).mapM letterOf = some letters
  length : tag.length = 8
  bits : digitBits 5 tag = toBits 40 (checksum symbols p.fivebit)

/-- The prefix, a colon, the letters of some symbols and of their checksum. -/
def Sealed (p : Prefix) (symbols text : List UInt8) : Prop :=
  ∃ tag letters, SealedLetters p symbols tag letters ∧ text = p.asStr ++ 58 :: letters

variable {p : Prefix} {version : Version}

theorem decodePayload_of_sealed {symbols tag letters : List UInt8}
    (h : SealedLetters p symbols tag letters) :
    decodePayload p letters = fromSymbols p symbols := by
  have hdigits := digits_of_letters h.letters
  have hlength := (mapM_eq_some_iff.mp h.letters).length_eq
  rw [length_append, h.length] at hlength
  have hcut : letters.length - 8 = symbols.length := by omega
  obtain ⟨bytes, rest, hconv, hbytes, hbits⟩ :=
    conv5to8_spec fun c hc => hdigits c (mem_append_right _ hc)
  rw [h.length] at hbytes
  have hrest : rest = [] := by
    have hcount := congrArg List.length hbits
    rw [length_append, length_digitBits, length_digitBits, h.length, hbytes] at hcount
    exact length_eq_zero_iff.mp (by omega)
  rw [hrest, append_nil, h.bits] at hbits
  unfold decodePayload
  simp only [mapM_symbolOf_eq_ok.mpr h.letters]
  rw [if_neg (by omega), hcut, take_left, drop_left, hconv, bind_some,
    if_neg (by omega), if_neg]
  rw [not_not]
  exact (checksum_eq_iff hbytes).mpr hbits.symm

theorem decodePayload_cases (p : Prefix) (letters : List UInt8) :
    (∃ e, decodePayload p letters = some (.error e)) ∨
      ∃ symbols tag, SealedLetters p symbols tag letters := by
  cases hsymbols : letters.mapM symbolOf with
  | error e =>
    left
    exact ⟨e, by simp only [decodePayload, hsymbols]⟩
  | ok symbols =>
    have hletters := mapM_symbolOf_eq_ok.mp hsymbols
    have hlength := (mapM_eq_some_iff.mp hletters).length_eq
    have hdigits := digits_of_letters hletters
    by_cases hshort : letters.length < 8
    · left
      exact ⟨.badPayload, by simp only [decodePayload, hsymbols, if_pos hshort]⟩
    obtain ⟨bytes, rest, hconv, hbytes, hbits⟩ := conv5to8_spec fun c hc => hdigits c
        (mem_of_mem_drop hc)
    have htag : (symbols.drop (letters.length - 8)).length = 8 := by
      rw [length_drop]
      omega
    rw [htag] at hbytes
    by_cases hsum : checksum (symbols.take (letters.length - 8)) p.fivebit = fromBeBytes bytes
    · right
      refine ⟨symbols.take (letters.length - 8), symbols.drop (letters.length - 8), ?_, htag, ?_⟩
      · rwa [take_append_drop]
      · rw [(checksum_eq_iff hbytes).mp hsum, ← hbits]
        have hcount := congrArg List.length hbits
        rw [length_append, length_digitBits, length_digitBits, htag, hbytes] at hcount
        have hrest : rest = [] := length_eq_zero_iff.mp (by omega)
        rw [hrest, append_nil]
    · left
      refine ⟨.badChecksum, ?_⟩
      unfold decodePayload
      simp only [hsymbols]
      rw [if_neg hshort, hconv, bind_some, if_neg (by omega), if_pos hsum]

theorem Prefix.tryFrom_eq_ok {text : List UInt8} :
    Prefix.tryFrom text = .ok p ↔ text = p.asStr := by
  constructor
  · intro h
    unfold Prefix.tryFrom at h
    split_ifs at h with h₁ h₂ h₃ h₄ <;> obtain rfl := Except.ok.inj h <;> assumption
  · rintro rfl
    cases p <;> decide +kernel

theorem Prefix.colon_notMem (p : Prefix) : 58 ∉ p.asStr := by
  cases p <;> decide +kernel

theorem Version.tryFrom_eq_ok {value : UInt8} :
    Version.tryFrom value = .ok version ↔ value = version.byte := by
  constructor
  · intro h
    unfold Version.tryFrom at h
    split_ifs at h with h₁ h₂ h₃ <;> obtain rfl := Except.ok.inj h <;> assumption
  · rintro rfl
    cases version <;> rfl

theorem splitOnce_eq_some {text first rest : List UInt8} :
    splitOnce text = some (first, rest) ↔ 58 ∉ first ∧ text = first ++ 58 :: rest := by
  induction text generalizing first with
  | nil => simp [splitOnce]
  | cons c text ih =>
    rw [splitOnce]
    split_ifs with hc
    · cases first with
      | nil => simp [hc, eq_comm]
      | cons =>
        simp only [Option.some.injEq, Prod.mk.injEq, cons_append, List.cons.injEq]
        constructor
        · rintro ⟨h, -⟩
          cases h
        · rintro ⟨hmem, rfl, -⟩
          exact absurd (hc ▸ mem_cons_self) hmem
    · rw [map_eq_some_iff]
      constructor
      · rintro ⟨⟨a, b⟩, hsplit, heq⟩
        obtain ⟨rfl, rfl⟩ := Prod.mk.inj heq
        obtain ⟨hmem, rfl⟩ := ih.mp hsplit
        refine ⟨?_, rfl⟩
        rw [mem_cons, not_or]
        exact ⟨Ne.symm hc, hmem⟩
      · rintro ⟨hmem, heq⟩
        cases first with
        | nil => exact absurd (List.cons.inj heq).1 hc
        | cons d first =>
          obtain ⟨rfl, rfl⟩ := List.cons.inj heq
          rw [mem_cons, not_or] at hmem
          exact ⟨(first, rest), ih.mpr ⟨hmem.2, rfl⟩, rfl⟩

/-- No panic, and an address only with a payload that fits its version. -/
def Safe {ε : Type} (result : Option (Except ε Address)) : Prop :=
  ∃ out, result = some out ∧ ∀ a, out = .ok a → a.payload.length = a.version.publicKeyLen

theorem safe_error {ε : Type} (e : ε) : Safe (some (.error e)) := by
  refine ⟨_, rfl, ?_⟩
  intro a ha
  cases ha

theorem safe_new_iff {ε : Type} {payload : List UInt8} :
    Safe ((Address.new p version payload).map (Except.ok (ε := ε))) ↔
      payload.length = version.publicKeyLen := by
  unfold Address.new
  split_ifs with h
  · refine ⟨fun _ => h, fun _ => ⟨_, rfl, ?_⟩⟩
    intro a ha
    obtain rfl := Except.ok.inj ha
    exact h
  · refine ⟨?_, fun hfits => absurd hfits h⟩
    rintro ⟨out, hout, -⟩
    cases hout

/-- There is a first byte, and if it is a version, the symbols make up a payload that fits
it. -/
structure Sized (symbols : List UInt8) : Prop where
  first : 2 ≤ symbols.length
  payload : ∀ version : Version, toBits 8 version.byte.toNat <+: digitBits 5 symbols →
    symbols.length * 5 / 8 = version.publicKeyLen + 1

theorem safe_fromSymbols_iff (p : Prefix) {symbols : List UInt8} (h : Digits 5 symbols) :
    Safe (fromSymbols p symbols) ↔ Sized symbols := by
  obtain ⟨bytes, rest, hconv, hlength, hbits⟩ := conv5to8_spec h
  unfold fromSymbols
  rw [hconv, bind_eq_bind, bind_some]
  cases bytes with
  | nil =>
    constructor
    · rintro ⟨out, hout, -⟩
      cases hout
    · intro hsized
      have hfirst := hsized.first
      rw [length_nil] at hlength
      omega
  | cons first payload =>
    rw [length_cons] at hlength
    -- the first byte is a version iff its bits lead the symbols
    have hversion : ∀ version : Version,
        toBits 8 version.byte.toNat <+: digitBits 5 symbols ↔ first = version.byte := by
      intro version
      have hlead : toBits 8 first.toNat <+: digitBits 5 symbols := by
        rw [← hbits]
        exact ⟨digitBits 8 payload ++ rest, by simp [digitBits]⟩
      constructor
      · intro hother
        have hle : (toBits 8 first.toNat).length ≤ (toBits 8 version.byte.toNat).length := by
          rw [length_toBits, length_toBits]
        have heq := (prefix_of_prefix_length_le hlead hother hle).eq_of_length
          (by rw [length_toBits, length_toBits])
        exact UInt8.toNat_inj.mp (toBits_inj first.toNat_lt version.byte.toNat_lt heq)
      · rintro rfl
        exact hlead
    simp only [getElem?_cons_zero, bind_eq_bind, bind_some, tail_cons]
    cases hfirst : Version.tryFrom first with
    | error e =>
      refine ⟨fun _ => ⟨by omega, ?_⟩, fun _ => safe_error e⟩
      intro version hlead
      rw [Version.tryFrom_eq_ok.mpr ((hversion version).mp hlead)] at hfirst
      cases hfirst
    | ok version =>
      have hbyte := Version.tryFrom_eq_ok.mp hfirst
      rw [safe_new_iff]
      constructor
      · intro hfits
        refine ⟨by omega, ?_⟩
        intro other hlead
        rw [Version.tryFrom_eq_ok.mpr ((hversion other).mp hlead)] at hfirst
        obtain rfl := Except.ok.inj hfirst
        omega
      · intro hsized
        have hfits := hsized.payload version ((hversion version).mpr hbyte)
        omega

theorem safe_tryFromBytes_iff (text : List UInt8) :
    Safe (tryFromBytes text) ↔ ∀ p symbols, Sealed p symbols text → Sized symbols := by
  constructor
  · rintro hsafe p symbols ⟨tag, letters, hsealed, rfl⟩
    have hdigits : Digits 5 symbols :=
      fun c hc => digits_of_letters hsealed.letters c (mem_append_left _ hc)
    have hsplit : splitOnce (p.asStr ++ 58 :: letters) = some (p.asStr, letters) :=
      splitOnce_eq_some.mpr ⟨p.colon_notMem, rfl⟩
    rw [tryFromBytes, hsplit] at hsafe
    simp only [Prefix.tryFrom_eq_ok.mpr rfl, decodePayload_of_sealed hsealed] at hsafe
    exact (safe_fromSymbols_iff p hdigits).mp hsafe
  · intro hsized
    unfold tryFromBytes
    cases hsplit : splitOnce text with
    | none => exact safe_error _
    | some parts =>
      obtain ⟨first, letters⟩ := parts
      obtain ⟨-, rfl⟩ := splitOnce_eq_some.mp hsplit
      cases hlead : Prefix.tryFrom first with
      | error e => simpa only [hlead] using safe_error e
      | ok p =>
        obtain rfl := Prefix.tryFrom_eq_ok.mp hlead
        simp only [hlead]
        rcases decodePayload_cases p letters with ⟨e, he⟩ | ⟨symbols, tag, hsealed⟩
        · rw [he]
          exact safe_error e
        · have hdigits : Digits 5 symbols :=
            fun c hc => digits_of_letters hsealed.letters c (mem_append_left _ hc)
          rw [decodePayload_of_sealed hsealed, safe_fromSymbols_iff p hdigits]
          exact hsized p symbols ⟨tag, letters, hsealed, rfl⟩

theorem Prefix.ofTag_eq_some {tag : UInt8} : ofTag tag = some p ↔ tag = p.tag := by
  constructor
  · intro h
    unfold ofTag at h
    split_ifs at h with h₁ h₂ h₃ h₄ <;> obtain rfl := some.inj h <;> assumption
  · rintro rfl
    cases p <;> rfl

theorem Version.ofTag_eq_some {tag : UInt8} :
    ofTag tag = some version ↔ tag = version.byte := by
  constructor
  · intro h
    unfold ofTag at h
    split_ifs at h with h₁ h₂ h₃ <;> obtain rfl := some.inj h <;> assumption
  · rintro rfl
    cases version <;> rfl

theorem deserializeEnum_eq_ok {α : Type} {ofTag : UInt8 → Option α} {bytes : List UInt8}
    {cursor next : ℕ} {a : α} :
    deserializeEnum ofTag bytes cursor = .ok (a, next) ↔
      (∃ tag, bytes[cursor]? = some tag ∧ ofTag tag = some a) ∧ next = cursor + 1 := by
  unfold deserializeEnum
  rw [bind_eq_ok_iff]
  constructor
  · rintro ⟨tag, mid, hbyte, hrest⟩
    obtain ⟨htag, rfl⟩ := byte_eq_ok.mp hbyte
    cases hvariant : ofTag tag with
    | none =>
      rw [hvariant] at hrest
      cases hrest
    | some =>
      rw [hvariant] at hrest
      obtain ⟨rfl, rfl⟩ := Prod.mk.inj (Except.ok.inj hrest)
      exact ⟨⟨tag, htag, hvariant⟩, rfl⟩
  · rintro ⟨⟨tag, htag, hvariant⟩, rfl⟩
    refine ⟨tag, cursor + 1, byte_eq_ok.mpr ⟨htag, rfl⟩, ?_⟩
    rw [hvariant]
    rfl

theorem deserializeVec_eq_ok {bytes payload : List UInt8} {cursor next : ℕ} :
    deserializeVec bytes cursor = .ok (payload, next) ↔
      toLeBytes 4 payload.length ++ payload <+: bytes.drop cursor ∧ payload.length < 2 ^ 32 ∧
        next = cursor + 4 + payload.length := by
  unfold deserializeVec uintLe
  simp only [bind_eq_ok_iff]
  constructor
  · rintro ⟨len, mid, ⟨size, mid', hsize, hlen⟩, bytes', mid'', hbytes, hout⟩
    obtain ⟨hroom, hlead, rfl⟩ := exactly_eq_ok.mp hsize
    obtain ⟨rfl, rfl⟩ := Prod.mk.inj (Except.ok.inj hlen)
    obtain ⟨hroom', hlead', rfl⟩ := exactly_eq_ok.mp hbytes
    obtain ⟨rfl, rfl⟩ := Prod.mk.inj (Except.ok.inj hout)
    have hsmall := fromLeBytes_lt size.val
    have hback := toLeBytes_fromLeBytes size.val
    rw [size.property] at hsmall hback
    rw [bytes'.property, hback]
    refine ⟨?_, by simpa using hsmall, rfl⟩
    obtain ⟨rest, hrest⟩ := hlead
    rw [← drop_drop, ← hrest, drop_left' size.property] at hlead'
    rw [← hrest]
    exact (prefix_append_right_inj _).mpr hlead'
  · rintro ⟨⟨rest, hrest⟩, hsmall, rfl⟩
    have hlen : fromLeBytes (toLeBytes 4 payload.length) = payload.length := by
      rw [fromLeBytes_toLeBytes]
      exact Nat.mod_eq_of_lt (by simpa using hsmall)
    have hroom := congrArg List.length hrest
    rw [length_append, length_append, length_toLeBytes, length_drop] at hroom
    refine ⟨payload.length, cursor + 4,
      ⟨⟨toLeBytes 4 payload.length, length_toLeBytes 4 _⟩, cursor + 4,
        exactly_eq_ok.mpr ⟨by omega, ?_, rfl⟩, by rw [hlen]; rfl⟩,
      ⟨payload, rfl⟩, cursor + 4 + payload.length,
      exactly_eq_ok.mpr ⟨by omega, ?_, rfl⟩, rfl⟩
    · exact ⟨payload ++ rest, by rw [← hrest, append_assoc]⟩
    · rw [← drop_drop, ← hrest, append_assoc, drop_left' (length_toLeBytes 4 _)]
      exact ⟨rest, rfl⟩

theorem deserializeFields_eq_ok {bytes payload : List UInt8} {next : ℕ} :
    deserializeFields bytes 0 = .ok ((p, version, payload), next) ↔
      (⟨p, version, payload⟩ : Address).serialize <+: bytes ∧ payload.length < 2 ^ 32 ∧
        next = 6 + payload.length := by
  unfold deserializeFields
  simp only [bind_eq_ok_iff]
  constructor
  · rintro ⟨p', mid, hp, version', mid', hversion, payload', mid'', hvec, hout⟩
    obtain ⟨⟨tag, htag, hlead⟩, rfl⟩ := deserializeEnum_eq_ok.mp hp
    obtain ⟨⟨byte, hbyte, hknown⟩, rfl⟩ := deserializeEnum_eq_ok.mp hversion
    obtain ⟨⟨rest, hrest⟩, hsmall, rfl⟩ := deserializeVec_eq_ok.mp hvec
    obtain ⟨hfields, rfl⟩ := Prod.mk.inj (Except.ok.inj hout)
    obtain ⟨rfl, rfl, rfl⟩ := by simpa using hfields
    obtain rfl := Prefix.ofTag_eq_some.mp hlead
    obtain rfl := Version.ofTag_eq_some.mp hknown
    refine ⟨⟨rest, ?_⟩, hsmall, by omega⟩
    -- the first two bytes are put back
    have hsplit : bytes = p'.tag :: version'.byte :: bytes.drop 2 := by
      match bytes, htag, hbyte with
      | a :: b :: bytes, htag, hbyte =>
        obtain rfl := some.inj htag
        obtain rfl := some.inj hbyte
        rfl
    rw [hsplit, ← hrest]
    simp [Address.serialize]
  · rintro ⟨⟨rest, rfl⟩, hsmall, rfl⟩
    refine ⟨p, 1, deserializeEnum_eq_ok.mpr ⟨⟨p.tag, rfl, Prefix.ofTag_eq_some.mpr rfl⟩, rfl⟩,
      version, 2, deserializeEnum_eq_ok.mpr ⟨⟨version.byte, rfl, Version.ofTag_eq_some.mpr rfl⟩, rfl⟩,
      payload, 6 + payload.length, ?_, rfl⟩
    apply deserializeVec_eq_ok.mpr
    refine ⟨⟨rest, ?_⟩, hsmall, by omega⟩
    simp [Address.serialize]

/-- The text parser panics exactly on texts with a valid checksum whose symbols are too few
for a version or do not fit it, and the Borsh decoder exactly on a payload that does not fit
its version. -/
theorem parsing_safe_iff (text : String) (bytes : List UInt8) :
    (Safe (tryFrom text) ↔ ∀ p symbols, Sealed p symbols (utf8 text) → Sized symbols) ∧
      (Safe (deserialize bytes) ↔ ∀ a : Address, a.serialize <+: bytes →
        a.payload.length < 2 ^ 32 → a.payload.length = a.version.publicKeyLen) := by
  refine ⟨safe_tryFromBytes_iff (utf8 text), ?_⟩
  unfold deserialize
  cases hfields : deserializeFields bytes 0 with
  | error e =>
    refine ⟨fun _ a hlead hsmall => ?_, fun _ => safe_error e⟩
    rw [deserializeFields_eq_ok.mpr ⟨hlead, hsmall, rfl⟩] at hfields
    cases hfields
  | ok out =>
    obtain ⟨⟨p, version, payload⟩, next⟩ := out
    obtain ⟨hlead, hsmall, -⟩ := deserializeFields_eq_ok.mp hfields
    simp only [safe_new_iff]
    constructor
    · intro hfits a ha hlt
      rw [deserializeFields_eq_ok.mpr ⟨ha, hlt, rfl⟩] at hfields
      obtain ⟨⟨rfl, rfl, rfl⟩, -⟩ := by simpa using hfields
      exact hfits
    · intro hall
      exact hall ⟨p, version, payload⟩ hlead hsmall

/-- A text without symbols before its checksum, and a Borsh record with an empty payload. -/
theorem short_address_panics :
    tryFrom "cryptix:gnqzc3ul" = none ∧ deserialize [0, 0, 0, 0, 0, 0] = none := by
  decide +kernel

end CryptixAtomic.Addresses
