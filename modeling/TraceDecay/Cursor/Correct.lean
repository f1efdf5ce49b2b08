import TraceDecay.Cursor.Sealing

/-!
# Cursor.Correct

A cursor verifies for exactly what it was minted for. Each segment of a cursor has one spelling
that its reader accepts (`routedKey_eq_ok`, `readSignature_eq_ok`, `readPayload_eq_ok`), so that
the text determines the key and the payload (`Sealed.unique`); and the checks on the payload pass
for one snapshot only (`verifyBindings_eq_ok`, `bound_injective`).
-/

namespace TraceDecay.Cursor

open Domain Ranking Fallible List
open BindingDigest (value_injective)
open CursorPayload (bound fromSnapshot)

/-! ## The segments -/

theorem decimal_all_isDigit (n : UInt16) : (decimal n).all Char.isDigit = true :=
  all_eq_true.mpr fun _ hc => Nat.isDigit_of_mem_toDigits (by omega) (by omega) hc

theorem parseU16_decimal (n : UInt16) : parseU16 (decimal n) = some n := by
  have hall := decimal_all_isDigit n
  have hp : (decimal n).head? ≠ some '+' := by
    intro h
    have hd := all_eq_true.mp hall '+' (mem_of_head? h)
    exact absurd hd (by decide)
  have hv : Nat.ofDigitChars 10 (decimal n) 0 = n.toNat :=
    Nat.ofDigitChars_toDigits (by omega) (by omega)
  have hb : n.toNat < 2 ^ 16 := n.toNat_lt
  simp only [parseU16, if_neg hp, hv]
  rw [if_pos ⟨Nat.toDigits_ne_nil, hall, hb⟩, UInt16.ofNat_toNat]

variable {key : SignedCursorKeyRefV1} {i now : Int} {p : CursorPayload}
  {snapshot e o : TemporalExecutionSnapshot} {α : Type} {c : α} {p' : CursorPosition}

theorem routedKey_eq_ok {idHex version : List Char} : routedKey idHex version = .ok key ↔
      idHex = keyIdHexOf key.keyId ∧ version = decimal key.version.value := by
  constructor
  · intro h
    simp only [routedKey, bind_eq_ok, ite_error_eq_ok] at h
    obtain ⟨keyIdBytes, -, keyIdText, -, keyId, -, value, -, keyVersion, -, hs, h⟩ := h
    cases h; simpa using hs
  · rintro ⟨rfl, rfl⟩
    have hid : CanonicalString.new? (String.ofList key.keyId.chars) = some key.keyId := by
      simp [CanonicalString.new?, CanonicalString.chars, key.keyId.canonical]
    have hv : SessionCursorVersionV1.new? key.version.value = some key.version := by
      simp [SessionCursorVersionV1.new?, key.version.nonzero]
    simp [routedKey, keyIdHexOf, Utf8.decode_encode, hid, parseU16_decimal, hv]

theorem readSignature_eq_ok {s : List Char} {signature : CursorSignature} :
    readSignature s = .ok signature ↔ s = signature.toHex := by
  constructor
  · intro h
    obtain ⟨read, _, h⟩ := bind_eq_ok.mp h
    obtain ⟨hs, h⟩ := ite_error_eq_ok.mp h
    cases h; simpa using hs
  · rintro rfl
    simp [readSignature, CursorSignature.fromHex, CursorSignature.toHex, signature.size,
      Except.mapError]

theorem readPayload_eq_ok {codec : PayloadCodec} {p : List Char} {payload : CursorPayload} :
    readPayload codec p = .ok payload ↔ p = Hex.encode (codec.toVec payload) := by
  constructor
  · intro h
    simp only [readPayload, bind_eq_ok, ite_error_eq_ok, Bool.or_eq_true, decide_eq_true_eq, not_or,
      not_not] at h
    obtain ⟨payloadBytes, -, parsed, -, hs, h⟩ := h
    cases h
    rw [hs.2, hs.1]
  · rintro rfl; simp [readPayload, codec.fromSlice_toVec]

/-! ## The checks on the payload -/

/-- The times at which a cursor issued at `issuedAt` is accepted. -/
def InWindow (issuedAt now : Int) : Prop :=
  issuedAt - cursorClockSkewMicros ≤ now ∧ now < issuedAt + cursorLifetimeMicros

theorem expiryOf_eq_ok {expiry : Int} {e : CursorError} : expiryOf i e = .ok expiry ↔
      i + cursorLifetimeMicros ≤ i64Max ∧ expiry = i + cursorLifetimeMicros := by
  unfold expiryOf
  split
  · simp [*, eq_comm]
  · simp [*]

theorem verifyValidityWindow_eq_ok : verifyValidityWindow p now = .ok () ↔
      0 ≤ p.issuedAtMicros ∧ p.issuedAtMicros + cursorLifetimeMicros ≤ i64Max ∧
        p.expiresAtMicros = p.issuedAtMicros + cursorLifetimeMicros ∧
        InWindow p.issuedAtMicros now := by
  have hl : 0 < cursorLifetimeMicros := by decide
  simp only [verifyValidityWindow, bind_eq_ok, expiryOf_eq_ok, ite_error_eq_ok, Bool.or_eq_true,
    decide_eq_true_eq, not_or, not_not, InWindow]
  constructor
  · rintro ⟨expiry, ⟨hr, rfl⟩, hc, -⟩; omega
  · rintro ⟨hi, hr, hexpires, hw⟩; exact ⟨_, ⟨hr, rfl⟩, by omega, trivial⟩

theorem availableKey_eq_ok :
    availableKey snapshot = .ok key ↔ snapshot.cursorKey = some key := elim_eq_ok

theorem verifyKey_eq_ok {routed : SignedCursorKeyRefV1} :
    verifyKey routed e = .ok () ↔ e.cursorKey = some routed := by
  obtain ⟨id, version⟩ := routed
  simp only [verifyKey, bind_eq_ok, availableKey_eq_ok, ite_error_eq_ok, not_not]
  constructor
  · rintro ⟨⟨id', version'⟩, hkey, rfl, rfl, -⟩; exact hkey
  · exact fun h => ⟨_, h, rfl, rfl, trivial⟩

theorem require_eq_ok [DecidableEq α] {expected : α} {e : CursorError} :
    require c expected e = .ok () ↔ c = expected := by
  simp [require]

theorem require_bind_eq_ok {β : Type} [DecidableEq α] {expected : α} {e : CursorError}
    {f : Unit → Except CursorError β} {b : β} :
    (require c expected e >>= f) = .ok b ↔ c = expected ∧ f () = .ok b := by
  by_cases h : c = expected <;> simp [require, h]

theorem verifyBindings_eq_ok :
    verifyBindings p e = .ok () ↔ p = .bound e p.binding p.position p.issuedAtMicros
        p.expiresAtMicros := by
  constructor
  · intro h
    cases p
    simp only [verifyBindings, require_bind_eq_ok, require_eq_ok] at h
    simp only [bound, h]
  · intro h; rw [h]; simp [verifyBindings, bound, require]

/-! ## What the payload says of the snapshot -/

theorem retrievalScope_eq {a b : TemporalRetrievalScope}
    (h : a.sessionId.map (·.value) = b.sessionId.map (·.value)) : a = b := by
  cases a with
  | session id =>
    cases b with
    | session id' =>
      rw [CanonicalString.value_injective (Option.some.inj h)]
    | allSessionsInAuthorizedRoot => cases h
  | allSessionsInAuthorizedRoot =>
    cases b with
    | session id' => cases h
    | allSessionsInAuthorizedRoot => rfl

theorem temporalMode_eq {a b : TemporalModeV1} (hm : a.asStr = b.asStr)
    (hc : temporalCutoff a = temporalCutoff b) : a = b := by
  cases a <;> cases b <;> first
    | rfl
    | exact absurd hm (by decide)
    | cases hc; rfl
    | cases hc

theorem grain_eq {a b : RetrievalGrainV1} (h : a.asStr = b.asStr) : a = b := by
  cases a <;> cases b <;> first | rfl | exact absurd h (by decide)

theorem bound_injective {s s' : CursorBindingStampV1}
    {position : CursorPosition} {issued' e e' : Int} (hkey : snapshot.cursorKey = o.cursorKey)
    (h : bound snapshot s position i e = .bound o s' p' issued' e') :
    snapshot = o ∧ s = s' ∧ position = p' ∧ i = issued' := by
  simp only [bound, CursorPayload.mk.injEq] at h
  obtain ⟨hstamp, hissued, -, hrequest, hfilter, hroot, -, hsession, hprovider, haccess, hmode,
    hcutoff, hgrain, hgeneration, hsource, hprojection, hindex, hsummary, hepoch, hcohort, hschema,
    hranking, hconfiguration, hposition⟩ := h
  refine ⟨?_, hstamp, hposition, hissued⟩
  obtain ⟨⟨scope, provider, root, request, filter, access, mode, grain⟩, ⟨_, _, _, _, _⟩,
    ⟨_, _, configuration⟩, key, epoch, cohort⟩ := snapshot
  obtain ⟨⟨scope', provider', root', request', filter', access', mode', grain'⟩, ⟨_, _, _, _, _⟩,
    ⟨_, _, configuration'⟩, key', epoch', cohort'⟩ := o
  obtain rfl := retrievalScope_eq hsession
  obtain rfl := Option.map_injective CanonicalString.value_injective hprovider
  obtain rfl := value_injective hroot
  obtain rfl := value_injective hrequest
  obtain rfl := value_injective hfilter
  obtain rfl := value_injective haccess
  obtain rfl := value_injective hconfiguration
  obtain rfl := value_injective hcohort
  obtain rfl := temporalMode_eq hmode hcutoff
  obtain rfl := grain_eq hgrain
  subst hgeneration hsource hprojection hindex hsummary hepoch hschema hranking hkey; rfl

/-! ## The sealed text -/

theorem intercalate_segments (v idHex k p signatureHex : List Char) :
    ['.'].intercalate [v, idHex, k, p, signatureHex] =
      authenticatedText v idHex k p ++ '.' :: signatureHex := by
  simp [List.intercalate, List.intersperse, authenticatedText]

theorem keyIdHexOf_fits (k : SessionCursorKeyIdV1) :
    (keyIdHexOf k).isEmpty = false ∧ len (keyIdHexOf k) ≤ maxCursorKeyIdHexBytes := by
  have hc := k.canonical
  simp only [isCanonicalTextWithin, isCanonicalText, Bool.and_eq_true, decide_eq_true_eq] at hc
  obtain ⟨hb, ⟨hn, -⟩, -⟩ := hc
  have hchars : 0 < k.chars.length := by rw [length_pos_iff]; simpa [CanonicalString.chars] using hn
  have hpos := Nat.lt_of_lt_of_le hchars (Utf8.length_le_encode k.chars)
  constructor
  · rw [isEmpty_eq_false_iff, keyIdHexOf, ← length_pos_iff, Hex.length_encode]; omega
  · rw [len, keyIdHexOf, Hex.length_utf8_encode]
    have hmax : canonicalTextMaxBytes = 512 := rfl
    have hl : maxCursorKeyIdHexBytes = 2 * 1024 := rfl
    have hb' : (Utf8.encode k.chars).length ≤ canonicalTextMaxBytes := hb
    omega

section Sealed

variable {codec : PayloadCodec} {authenticator : SessionCursorAuthenticator}

def authenticatedOf (codec : PayloadCodec) (key : SignedCursorKeyRefV1) (payload : CursorPayload) :
    List Char :=
  authenticatedText cursorFormatVersion (keyIdHexOf key.keyId) (decimal key.version.value)
    (Hex.encode (codec.toVec payload))

/-- The text is the payload under the signature of the key. -/
def Sealed (codec : PayloadCodec) (authenticator : SessionCursorAuthenticator)
    (key : SignedCursorKeyRefV1) (payload : CursorPayload) (text : List Char) : Prop :=
  codec.toVec payload ≠ [] ∧ 2 * (codec.toVec payload).length ≤ maxCursorPayloadHexBytes ∧
    ∃ signature,
      authenticator.sign key (Utf8.encode (authenticatedOf codec key payload)) = .ok signature ∧
        text = authenticatedOf codec key payload ++ '.' :: signature.toHex

theorem splitOn_sealed (key : SignedCursorKeyRefV1) (p : CursorPayload) (s : CursorSignature) :
    (authenticatedOf codec key p ++ '.' :: s.toHex).splitOn '.' =
      [cursorFormatVersion, keyIdHexOf key.keyId, decimal key.version.value,
        Hex.encode (codec.toVec p), s.toHex] := by
  have hdot : Hex.digitValue '.' = none := by decide
  rw [authenticatedOf, ← intercalate_segments]
  refine splitOn_intercalate _ ?_ (by simp)
  intro segment hs
  simp only [mem_cons, not_mem_nil, or_false] at hs
  rcases hs with rfl | rfl | rfl | rfl | rfl
  · decide
  · exact Hex.not_mem_encode hdot _
  · intro hmem; exact absurd (all_eq_true.mp (decimal_all_isDigit _) '.' hmem) (by decide)
  · exact Hex.not_mem_encode hdot _
  · exact Hex.not_mem_encode hdot _

variable {text : List Char} {binding : CursorBindingV1} {position : CursorPosition}
  {snapshot : TemporalExecutionSnapshot}

theorem Sealed.unique {key' : SignedCursorKeyRefV1} {payload' : CursorPayload}
    (h : Sealed codec authenticator key p text)
    (h' : Sealed codec authenticator key' payload' text) : key = key' ∧ p = payload' := by
  obtain ⟨-, -, signature, -, rfl⟩ := h
  obtain ⟨-, -, signature', -, ht⟩ := h'
  have hs := congrArg (List.splitOn '.') ht
  rw [splitOn_sealed, splitOn_sealed] at hs
  simp only [List.cons.injEq, and_true, true_and] at hs
  obtain ⟨hid, hv, hpayload, -⟩ := hs
  have hkey := routedKey_eq_ok.mpr ⟨hid, hv⟩
  have hp := readPayload_eq_ok.mpr hpayload
  rw [routedKey_eq_ok.mpr ⟨rfl, rfl⟩] at hkey
  rw [readPayload_eq_ok.mpr rfl] at hp; exact ⟨Except.ok.inj hkey, Except.ok.inj hp⟩

theorem payloadHex_fits : (Hex.encode (codec.toVec p)).isEmpty = false ∧
        len (Hex.encode (codec.toVec p)) ≤ maxCursorPayloadHexBytes ↔
      codec.toVec p ≠ [] ∧ 2 * (codec.toVec p).length ≤ maxCursorPayloadHexBytes := by
  rw [len, Hex.length_utf8_encode, isEmpty_eq_false_iff, ← length_pos_iff,
    Hex.length_encode, ← length_pos_iff]
  omega

theorem fromSnapshot_eq_ok : fromSnapshot snapshot binding position i = .ok p ↔
      validatePosition position = .ok () ∧ (∃ key, snapshot.cursorKey = some key) ∧
        i + cursorLifetimeMicros ≤ i64Max ∧
        p = .bound snapshot binding.stamp position i (i + cursorLifetimeMicros) := by
  simp only [fromSnapshot, bind_eq_ok, availableKey_eq_ok, expiryOf_eq_ok]
  constructor
  · rintro ⟨⟨⟩, hp, key, hkey, expiry, ⟨hr, rfl⟩, h⟩; cases h; exact ⟨hp, ⟨key, hkey⟩, hr, rfl⟩
  · rintro ⟨hp, ⟨key, hkey⟩, hr, rfl⟩; exact ⟨(), hp, key, hkey, _, ⟨hr, rfl⟩, rfl⟩

theorem encodeCursorAt_eq_ok :
    encodeCursorAt codec authenticator snapshot binding position i = .ok text ↔
      validatePosition position = .ok () ∧ i + cursorLifetimeMicros ≤ i64Max ∧
        ∃ key, snapshot.cursorKey = some key ∧
          Sealed codec authenticator key (.bound snapshot binding.stamp position i
            (i + cursorLifetimeMicros)) text := by
  simp only [encodeCursorAt, bind_eq_ok, fromSnapshot_eq_ok, availableKey_eq_ok, ite_error_eq_ok,
    mapError_eq_ok, Bool.or_eq_true, decide_eq_true_eq, not_or, not_lt, Bool.not_eq_true]
  constructor
  · rintro ⟨payload, ⟨hposition, -, hr, rfl⟩, key, hkey, hf, signature, hs, h⟩
    cases h
    obtain ⟨hn, hsize⟩ := payloadHex_fits.mp ⟨hf.1.2, hf.2⟩
    exact ⟨hposition, hr, key, hkey, hn, hsize, signature, hs, rfl⟩
  · rintro ⟨hposition, hr, key, hkey, hn, hsize, signature, hs, rfl⟩
    obtain ⟨hp, hp'⟩ := payloadHex_fits.mpr ⟨hn, hsize⟩
    exact ⟨_, ⟨hposition, ⟨key, hkey⟩, hr, rfl⟩, key, hkey, ⟨⟨keyIdHexOf_fits key.keyId, hp⟩, hp'⟩,
      signature, hs, rfl⟩

/-- The checks on a parsed payload, taken together: it is the payload the snapshot gives, for a
binding with the same operation and digest, at an issue time whose window holds `now`. -/
structure Admits (expected : TemporalExecutionSnapshot) (binding : CursorBindingV1) (now : Int)
    (key : SignedCursorKeyRefV1) (payload : CursorPayload) : Prop where
  operation : payload.binding.operation = binding.operation
  digest : payload.binding.digest = binding.digest
  issued : 0 ≤ payload.issuedAtMicros
  representable : payload.issuedAtMicros + cursorLifetimeMicros ≤ i64Max
  inWindow : InWindow payload.issuedAtMicros now
  cursorKey : expected.cursorKey = some key
  bound : payload = .bound expected payload.binding payload.position payload.issuedAtMicros
    (payload.issuedAtMicros + cursorLifetimeMicros)
  position : validatePosition payload.position = .ok ()

theorem verifyCursorAt_eq_ok :
    verifyCursorAt codec authenticator text e binding now = .ok position ↔
      ∃ key p, Sealed codec authenticator key p text ∧
        Admits e binding now key p ∧ p.position = position := by
  constructor
  · intro h
    unfold verifyCursorAt at h
    split at h
    case h_2 => cases h
    case h_1 version keyIdHex keyVersionText payloadHex signatureHex hsplit =>
    have ht : ['.'].intercalate (text.splitOn '.') = text := intercalate_splitOn '.'
    rw [hsplit, intercalate_segments] at ht
    simp only [verifySegments, ite_error_eq_ok, Bool.or_eq_true, decide_eq_true_eq, not_or, not_lt,
      Bool.not_eq_true, not_not, bind_eq_ok, mapError_eq_ok, routedKey_eq_ok, readSignature_eq_ok,
      readPayload_eq_ok, authenticator.verify_eq_ok] at h
    obtain ⟨⟨⟨⟨⟨⟨rfl, -⟩, -⟩, hn⟩, hsize⟩, -⟩, key, ⟨rfl, rfl⟩, signature, rfl, ⟨⟩, hsigned, p, rfl,
      ⟨⟩, hb, ⟨⟩, hw, ⟨⟩, hc, ⟨⟩, hbindings, ⟨⟩, hposition, hread⟩ := h
    obtain ⟨ho, hd⟩ := CursorBindingV1.check_eq_ok.mp hb
    obtain ⟨hissued, hr, he, hi⟩ := verifyValidityWindow_eq_ok.mp hw
    obtain ⟨hn, hsize⟩ := payloadHex_fits.mp ⟨hn, hsize⟩
    refine ⟨key, p, ⟨hn, hsize, signature, hsigned, ht.symm⟩, ?_, Except.ok.inj hread⟩
    exact ⟨ho, hd, hissued, hr, hi, verifyKey_eq_ok.mp hc,
      he ▸ verifyBindings_eq_ok.mp hbindings, hposition⟩
  · rintro ⟨key, p, ⟨hn, hsize, signature, hsigned, rfl⟩, ha, rfl⟩
    have he : p.expiresAtMicros = p.issuedAtMicros + cursorLifetimeMicros := by rw [ha.bound]; rfl
    have hid := keyIdHexOf_fits key.keyId
    have hf := payloadHex_fits.mpr ⟨hn, hsize⟩
    have hs : len signature.toHex = 64 := by
      rw [len, CursorSignature.toHex, Hex.length_utf8_encode, signature.size]
    unfold verifyCursorAt
    rw [splitOn_sealed]
    simp only [verifySegments, ite_error_eq_ok, bind_eq_ok, mapError_eq_ok, routedKey_eq_ok,
      readSignature_eq_ok, readPayload_eq_ok, authenticator.verify_eq_ok]
    exact ⟨by simp [hid, hf, hs], key, ⟨rfl, rfl⟩, signature, rfl, (), hsigned, p, rfl, (),
      CursorBindingV1.check_eq_ok.mpr ⟨ha.operation, ha.digest⟩, (),
      verifyValidityWindow_eq_ok.mpr ⟨ha.issued, ha.representable, he, ha.inWindow⟩, (),
      verifyKey_eq_ok.mpr ha.cursorKey, (), verifyBindings_eq_ok.mpr (he ▸ ha.bound), (),
      ha.position, rfl⟩

/-! ## Minting and verifying -/

/-- The text determines everything it was minted from. -/
theorem encodeCursorAt_injective {b' : CursorBindingV1} {issuedAt' : Int}
    (h : encodeCursorAt codec authenticator snapshot binding position i = .ok text)
    (h' : encodeCursorAt codec authenticator o b' p' issuedAt' = .ok text) :
    snapshot = o ∧ binding.stamp = b'.stamp ∧ position = p' ∧ i = issuedAt' := by
  obtain ⟨-, -, key, hkey, hs⟩ := encodeCursorAt_eq_ok.mp h
  obtain ⟨-, -, key', hk', hs'⟩ := encodeCursorAt_eq_ok.mp h'
  obtain ⟨rfl, hp⟩ := hs.unique hs'
  exact bound_injective (hkey.trans hk'.symm) hp

def bindingOf (stamp : CursorBindingStampV1) : CursorBindingV1 :=
  ⟨stamp.operation, stamp.digest, stamp.fingerprints.map fun fingerprint => ("", fingerprint)⟩

@[simp] theorem stamp_bindingOf (stamp : CursorBindingStampV1) : (bindingOf stamp).stamp = stamp := by
  simp [bindingOf, CursorBindingV1.stamp]

theorem encode_of_verify
    (h : verifyCursorAt codec authenticator text snapshot binding now = .ok position) :
    ∃ m i, m.operation = binding.operation ∧ m.digest = binding.digest ∧ 0 ≤ i ∧ InWindow i now ∧
      encodeCursorAt codec authenticator snapshot m position i = .ok text := by
  obtain ⟨key, payload, hs, ha, rfl⟩ := verifyCursorAt_eq_ok.mp h
  refine ⟨bindingOf payload.binding, payload.issuedAtMicros, ha.operation, ha.digest,
    ha.issued, ha.inWindow, ?_⟩
  refine encodeCursorAt_eq_ok.mpr ⟨ha.position, ha.representable, key, ha.cursorKey, ?_⟩
  rw [stamp_bindingOf, ← ha.bound]; exact hs

theorem verify_of_encode {m : CursorBindingV1} (ho : m.operation = binding.operation)
    (hd : m.digest = binding.digest) (hi : 0 ≤ i) (hw : InWindow i now)
    (h : encodeCursorAt codec authenticator snapshot m position i = .ok text) :
    verifyCursorAt codec authenticator text snapshot binding now = .ok position := by
  obtain ⟨hp, hr, key, hkey, hs⟩ := encodeCursorAt_eq_ok.mp h
  exact verifyCursorAt_eq_ok.mpr ⟨key, _, hs, ⟨ho, hd, hi, hr, hw, hkey, rfl, hp⟩, rfl⟩

end Sealed

variable (codec : PayloadCodec) (authenticator : SessionCursorAuthenticator)

/-- Cursors verify for what they were minted for. A minted cursor is accepted for its snapshot and
binding exactly while its window is open. Whatever is accepted is byte for byte what minting
writes for that snapshot, the position it names, the issue time it carries and a binding of the
same operation and digest; the text determines all of these. And no text is accepted for two
snapshots, positions, operations or digests. -/
theorem verify_accepts_what_encode_writes (snapshot : TemporalExecutionSnapshot)
    (binding : CursorBindingV1) :
    (∀ position issuedAt text, 0 ≤ issuedAt →
      encodeCursorAt codec authenticator snapshot binding position issuedAt = .ok text →
      ∀ now, verifyCursorAt codec authenticator text snapshot binding now = .ok position ↔
        issuedAt - cursorClockSkewMicros ≤ now ∧ now < issuedAt + cursorLifetimeMicros) ∧
    (∀ text now position,
      verifyCursorAt codec authenticator text snapshot binding now = .ok position →
      ∃ minted issuedAt, minted.operation = binding.operation ∧ minted.digest = binding.digest ∧
        0 ≤ issuedAt ∧
        (issuedAt - cursorClockSkewMicros ≤ now ∧ now < issuedAt + cursorLifetimeMicros) ∧
        encodeCursorAt codec authenticator snapshot minted position issuedAt = .ok text ∧
        ∀ minted' issuedAt' position',
          encodeCursorAt codec authenticator snapshot minted' position' issuedAt' = .ok text →
          minted'.stamp = minted.stamp ∧ issuedAt' = issuedAt ∧ position' = position) ∧
    (∀ text now position other otherBinding otherNow otherPosition,
      verifyCursorAt codec authenticator text snapshot binding now = .ok position →
      verifyCursorAt codec authenticator text other otherBinding otherNow = .ok otherPosition →
      other = snapshot ∧ otherPosition = position ∧
        otherBinding.operation = binding.operation ∧ otherBinding.digest = binding.digest) := by
  refine ⟨?_, ?_, ?_⟩
  · intro position issuedAt text hi he now
    constructor
    · intro hv
      obtain ⟨minted, issuedAt', -, -, -, hw, hm⟩ := encode_of_verify hv
      obtain ⟨-, -, -, rfl⟩ := encodeCursorAt_injective he hm
      exact hw
    · intro hw; exact verify_of_encode rfl rfl hi hw he
  · intro text now position hv
    obtain ⟨minted, issuedAt, ho, hd, hi, hw, hm⟩ := encode_of_verify hv
    refine ⟨minted, issuedAt, ho, hd, hi, hw, hm, ?_⟩
    intro minted' issuedAt' position' hm'
    obtain ⟨-, hs, hp, ht⟩ := encodeCursorAt_injective hm' hm
    exact ⟨hs, ht, hp⟩
  · intro text now position other otherBinding otherNow otherPosition hv hother
    obtain ⟨minted, issuedAt, ho, hd, -, -, hm⟩ := encode_of_verify hv
    obtain ⟨minted', issuedAt', ho', hd', -, -, hm'⟩ := encode_of_verify hother
    obtain ⟨hsnapshot, hs, hp, -⟩ := encodeCursorAt_injective hm' hm
    have hsame : minted'.operation = minted.operation := congrArg CursorBindingStampV1.operation hs
    have hdig : minted'.digest = minted.digest := congrArg CursorBindingStampV1.digest hs
    exact ⟨hsnapshot, hp, ho'.symm.trans (hsame.trans ho), hd'.symm.trans (hdig.trans hd)⟩

/-! ## A run

Any code that reads back what it wrote can stand for the payload's, and a signature that says
nothing for the signer's. -/

def manifestDigestCode : TextCode ManifestDigest :=
  TextCode.string.via ManifestDigest.value
    (fun value => if h : isIntegrityDigest value.toList = true then some ⟨value, h⟩ else none)
    (fun digest => by simp [digest.integral])

def stampCode : TextCode CursorBindingStampV1 :=
  (TextCode.string.pair (manifestDigestCode.pair TextCode.string.list)).via
    (fun stamp => (stamp.operation, stamp.digest, stamp.fingerprints))
    (fun p => some ⟨p.1, p.2.1, p.2.2⟩) fun _ => rfl

def sortKeyCode : TextCode StableSortKey :=
  (TextCode.nat.pair (TextCode.int.pair TextCode.string)).via
    (fun key => (key.normalizedScoreMicros, key.knowledgeAtMicros, key.stableId))
    (fun p => some ⟨p.1, p.2.1, p.2.2⟩) fun _ => rfl

def positionCode : TextCode CursorPosition :=
  (TextCode.string.option.pair sortKeyCode.option).via
    (fun position => (position.candidateKeyset, position.lastSortKey))
    (fun p => some ⟨p.1, p.2⟩) fun _ => rfl

def payloadCode : TextCode CursorPayload :=
  (stampCode.pair (TextCode.string.list.pair (TextCode.string.option.list.pair
      (TextCode.int.list.pair (TextCode.nat.list.pair (TextCode.int.option.pair positionCode)))))).via
    (fun p => (p.binding,
      [p.requestDigest, p.filterDigest, p.rootDigest, p.scopeKind, p.accessDigest, p.temporalMode,
        p.grain, p.epochDigest, p.candidateCohortDigest, p.configurationDigest],
      [p.sessionId, p.providerScope], [p.issuedAtMicros, p.expiresAtMicros],
      [p.generation, p.sourceWatermark, p.projectionWatermark, p.indexWatermark,
        p.summaryWatermark, p.schemaVersion, p.rankingVersion], p.cutoffMicros, p.position))
    (fun
      | (binding, [requestDigest, filterDigest, rootDigest, scopeKind, accessDigest, temporalMode,
            grain, epochDigest, candidateCohortDigest, configurationDigest],
          [sessionId, providerScope], [issuedAtMicros, expiresAtMicros],
          [generation, sourceWatermark, projectionWatermark, indexWatermark, summaryWatermark,
            schemaVersion, rankingVersion], cutoffMicros, position) =>
        some { binding, issuedAtMicros, expiresAtMicros, requestDigest, filterDigest, rootDigest,
               scopeKind, sessionId, providerScope, accessDigest, temporalMode, cutoffMicros,
               grain, generation, sourceWatermark, projectionWatermark, indexWatermark,
               summaryWatermark, epochDigest, candidateCohortDigest, schemaVersion,
               rankingVersion, configurationDigest, position }
      | _ => none) fun _ => rfl

/-- Not the JSON text of the source: a length-prefixed text that is read back, which is all that the
results ask of a codec. -/
def plainCodec : PayloadCodec where
  toVec payload := Utf8.encode (payloadCode.write payload)
  fromSlice bytes := (Utf8.decode bytes).bind fun text => (payloadCode.read text).map (·.1)
  fromSlice_toVec payload := by
    have hread := payloadCode.read_write payload []
    rw [append_nil] at hread; simp [Utf8.decode_encode, hread]

def blankSignature : CursorSignature := ⟨List.replicate 32 0, length_replicate⟩

def blankAuthenticator : SessionCursorAuthenticator where
  sign _ _ := .ok blankSignature
  verify _ _ signature :=
    if signature = blankSignature then .ok () else .error .authenticationFailed
  verify_eq_ok key authenticated signature := by
    by_cases h : signature = blankSignature
    · simp [h]
    · simp [h, Ne.symm h]

def digestText : String := "sha256:c0c0c0c0c0c0c0c0c0c0c0c0c0c0c0c0c0c0c0c0c0c0c0c0c0c0c0c0c0c0c0c0"

def someDigest : BindingDigest := ⟨digestText, by decide⟩

def someKey : SignedCursorKeyRefV1 := ⟨⟨"key-1", by decide⟩, ⟨1, by decide⟩⟩

def someSnapshot : TemporalExecutionSnapshot where
  request := ⟨.session ⟨"session-1", by decide⟩, none, someDigest, someDigest, someDigest,
    someDigest, .asOf 40, .turn⟩
  watermarks := ⟨1, 2, 3, 4, 5⟩
  versions := ⟨1, 1, someDigest⟩
  cursorKey := some someKey
  epochDigest := digestText
  candidateCohortDigest := someDigest

def someBinding : CursorBindingV1 :=
  ⟨"session_retrieval", ⟨digestText, by decide⟩, [("query", "0a1b2c3d")]⟩

/-- The same operation and digest under another fingerprint. -/
def relabelledBinding : CursorBindingV1 :=
  { someBinding with parameters := [("query", "ffffffff")] }

def somePosition : CursorPosition := ⟨none, some ⟨900, 12, "message-7"⟩⟩

theorem someSnapshot_encodes :
    ∃ text, encodeCursorAt plainCodec blankAuthenticator someSnapshot someBinding somePosition 0 =
      .ok text := by
  refine ⟨_, encodeCursorAt_eq_ok.mpr ⟨by decide, by decide, someKey, rfl, ?_, ?_,
    blankSignature, rfl, rfl⟩⟩
  · decide +kernel
  · decide +kernel

theorem someSnapshot_verify_accepts : ∃ text,
      encodeCursorAt plainCodec blankAuthenticator someSnapshot someBinding somePosition 0 =
        .ok text ∧
      (∀ now, verifyCursorAt plainCodec blankAuthenticator text someSnapshot someBinding now =
        .ok somePosition ↔ 0 - cursorClockSkewMicros ≤ now ∧ now < 0 + cursorLifetimeMicros) ∧
      (∀ other otherBinding otherNow otherPosition,
        verifyCursorAt plainCodec blankAuthenticator text other otherBinding otherNow =
          .ok otherPosition → other = someSnapshot ∧ otherPosition = somePosition) := by
  obtain ⟨text, ht⟩ := someSnapshot_encodes
  obtain ⟨hm, -, honly⟩ := verify_accepts_what_encode_writes plainCodec blankAuthenticator
    someSnapshot someBinding
  have hw := hm somePosition 0 text (by decide) ht
  refine ⟨text, ht, hw, ?_⟩
  intro other otherBinding otherNow otherPosition ho
  have hnow := (hw 0).mpr (by decide)
  obtain ⟨hs, hp, -⟩ := honly text 0 somePosition other otherBinding otherNow otherPosition hnow ho
  exact ⟨hs, hp⟩

/-- A signed text is accepted for a binding whose fingerprints it does not carry, since the digest
alone decides, and minting never writes it for that binding. -/
theorem relabelled_accepted_not_minted : ∃ text,
      verifyCursorAt plainCodec blankAuthenticator text someSnapshot relabelledBinding 0 =
        .ok somePosition ∧
      ∀ position issuedAt,
        encodeCursorAt plainCodec blankAuthenticator someSnapshot relabelledBinding position
          issuedAt ≠ .ok text := by
  obtain ⟨text, ht⟩ := someSnapshot_encodes
  have hw : InWindow 0 0 := ⟨by decide, by decide⟩
  have ho : someBinding.operation = relabelledBinding.operation := rfl
  have hd : someBinding.digest = relabelledBinding.digest := rfl
  refine ⟨text, verify_of_encode ho hd (by decide) hw ht, ?_⟩
  intro position issuedAt hm
  obtain ⟨-, hs, -⟩ := encodeCursorAt_injective ht hm
  exact absurd hs (by decide)

end TraceDecay.Cursor
