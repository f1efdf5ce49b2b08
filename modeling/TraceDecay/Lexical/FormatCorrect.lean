import TraceDecay.Lexical.Format

/-!
# Lexical.FormatCorrect

A posting list has one encoding. `Entry` says what one entry looks like behind the previous
document; `decodeNext_eq_ok` that the decoder reads exactly the entries the encoder writes, and
`collect_eq_ok` the same of whole lists. `posting_lists_have_one_encoding` is the bijection between
lists and the byte strings the decoder accepts.
-/

namespace TraceDecay.Lexical

open Fallible
open PostingListDecoder (advance collect decodeNext next takeEntry)

/-- The posting is one the encoder takes behind `previous`. -/
structure Follows (frequencies : Bool) (previous : Option Nat) (p : Posting) : Prop where
  ascending : ∀ d ∈ previous, d < p.1
  document : p.1 < u32Size
  positive : 0 < p.2
  frequency : p.2 < u32Size
  single : frequencies = false → p.2 = 1

def entryBytes (frequencies : Bool) (delta frequency : Nat) : List UInt8 :=
  if frequencies then
    encodeVarint (2 * delta + if frequency = 1 then 0 else 1) ++
      if frequency = 1 then [] else encodeVarint frequency
  else encodeVarint delta

/-- The distance from the previous document. -/
def distance (previous : Option Nat) (document : Nat) : Nat := document - previous.getD 0

theorem entryBytes_ne_nil (frequencies : Bool) (d f : Nat) : entryBytes frequencies d f ≠ [] := by
  unfold entryBytes encodeVarint
  split
  · simp [Leb128.encode_ne_nil]
  · exact Leb128.encode_ne_nil _

variable {bytes : List UInt8} {previous : Option Nat} {frequencies : Bool} {ps : List Posting}
  {rest : List UInt8} {p : Posting}

theorem takeVarint_eq_ok {v : Nat} : takeVarint bytes = .ok (v, rest) ↔
      v < 2 ^ 64 ∧ bytes = encodeVarint v ++ rest := Leb128.take_eq_ok

theorem takeEntry_eq_ok {decoder : PostingListDecoder} {d frequency : Nat}
    (hd : d < u32Size) (hfreq : frequency < u32Size) :
    decoder.takeEntry = .ok ((d, frequency), rest) ↔
      decoder.bytes = entryBytes decoder.frequencies d frequency ++ rest ∧ 0 < frequency ∧
        (decoder.frequencies = false → frequency = 1) := by
  obtain ⟨bytes, previous, frequencies⟩ := decoder
  simp only [takeEntry]
  unfold u32Size at hd hfreq
  constructor
  · intro h
    obtain ⟨⟨token, tail⟩, ht, he⟩ := bind_eq_ok.mp h
    obtain ⟨-, hb⟩ := takeVarint_eq_ok.mp ht
    cases frequencies with
    | false => cases he; exact ⟨hb, by decide, fun _ => rfl⟩
    | true =>
      simp only [if_true] at he
      split at he
      · next hflag =>
        obtain ⟨⟨f, tail'⟩, hf, hc⟩ := bind_eq_ok.mp he
        obtain ⟨-, htail⟩ := takeVarint_eq_ok.mp hf
        simp only at hc
        split at hc
        · cases hc
        next hl =>
        cases hc
        have hone : frequency ≠ 1 := by omega
        have ht' : 2 * (token / 2) + 1 = token := by omega
        exact ⟨by simp [entryBytes, hone, ht', hb, htail], by omega, by simp⟩
      · next hflag =>
        cases he
        have ht' : 2 * (token / 2) = token := by omega
        exact ⟨by simp [entryBytes, ht', hb], by decide, fun _ => rfl⟩
  · rintro ⟨rfl, hpos, hs⟩
    have hread : ∀ {v : Nat} (tail : List UInt8), v < 2 ^ 64 →
        takeVarint (encodeVarint v ++ tail) = .ok (v, tail) :=
      fun tail hv => takeVarint_eq_ok.mpr ⟨hv, rfl⟩
    cases frequencies with
    | false =>
      obtain rfl := hs rfl
      rw [show entryBytes false d 1 = encodeVarint d from rfl, hread rest (by omega)]; rfl
    | true =>
      by_cases hone : frequency = 1
      · subst hone
        rw [show entryBytes true d 1 = encodeVarint (2 * d) by simp [entryBytes],
          hread rest (by omega)]
        simp
      · have he : entryBytes true d frequency =
            encodeVarint (2 * d + 1) ++ encodeVarint frequency := by simp [entryBytes, hone]
        rw [he, List.append_assoc, hread _ (by omega)]
        simp only [ok_bind, if_true, show (2 * d + 1) % 2 = 1 by omega, hread rest
          (by omega : frequency < 2 ^ 64)]
        rw [if_neg (by omega), show (2 * d + 1) / 2 = d by omega]

theorem advance_eq_ok {delta document : Nat} :
    delta < u32Size ∧ advance previous delta = .ok document ↔
      (∀ d ∈ previous, d < document) ∧ document < u32Size ∧ delta = distance previous document := by
  cases previous with
  | none =>
    simp only [advance, distance, Except.ok.injEq]
    constructor
    · rintro ⟨hdelta, rfl⟩; exact ⟨by simp, hdelta, rfl⟩
    · rintro ⟨-, hd, rfl⟩; exact ⟨hd, rfl⟩
  | some d =>
    simp only [advance, distance, Option.getD_some, Option.mem_some_iff, forall_eq']
    constructor
    · rintro ⟨hdelta, h⟩
      split at h
      · cases h
      split at h
      · cases h
      · cases h; exact ⟨by omega, by omega, by omega⟩
    · rintro ⟨hlt, hd, rfl⟩
      refine ⟨by omega, ?_⟩
      rw [if_neg (by omega), if_neg (by omega), show d + (document - d) = document by omega]

theorem decodeNext_eq_ok {d : PostingListDecoder} :
    decodeNext ⟨bytes, previous, frequencies⟩ = .ok (p, d) ↔
      Follows frequencies previous p ∧ ∃ rest, d = ⟨rest, some p.1, frequencies⟩ ∧
        bytes = entryBytes frequencies (distance previous p.1) p.2 ++ rest := by
  unfold decodeNext
  constructor
  · intro h
    obtain ⟨⟨⟨delta, frequency⟩, rest⟩, he, hrest⟩ := bind_eq_ok.mp h
    simp only [Bool.or_eq_true, decide_eq_true_eq] at hrest
    split at hrest
    · cases hrest
    next hsmall =>
    obtain ⟨document, hd, hr⟩ := bind_eq_ok.mp hrest
    have hdelta : delta < u32Size := by omega
    have hf : frequency < u32Size := by omega
    obtain ⟨ha, hb, hdoc⟩ := advance_eq_ok.mp ⟨hdelta, hd⟩
    obtain ⟨hbytes, hpos, hs⟩ := (takeEntry_eq_ok hdelta hf).mp he
    cases hr; exact ⟨⟨ha, hb, hpos, hf, hs⟩, rest, rfl, hdoc ▸ hbytes⟩
  · rintro ⟨⟨ha, hb, hpos, hf, hs⟩, rest, rfl, rfl⟩
    obtain ⟨hdelta, hd⟩ := advance_eq_ok.mpr ⟨ha, hb, rfl⟩
    rw [(takeEntry_eq_ok hdelta hf).mpr ⟨rfl, hpos, hs⟩]
    simp only [ok_bind, Bool.or_eq_true, decide_eq_true_eq]
    rw [if_neg (by omega), hd]; rfl

/-! ## Whole lists -/

/-- Each posting is one the encoder takes behind those before it. -/
def FollowAll (frequencies : Bool) : Option Nat → List Posting → Prop
  | _, [] => True
  | previous, p :: ps => Follows frequencies previous p ∧ FollowAll frequencies (some p.1) ps

def listBytes (frequencies : Bool) : Option Nat → List Posting → List UInt8
  | _, [] => []
  | previous, p :: ps =>
    entryBytes frequencies (distance previous p.1) p.2 ++ listBytes frequencies (some p.1) ps

variable {fuel : Nat}

theorem collect_nil : collect fuel ⟨[], previous, frequencies⟩ = .ok ps ↔
    FollowAll frequencies previous ps ∧ [] = listBytes frequencies previous ps := by
  have hnone : collect fuel ⟨[], previous, frequencies⟩ = .ok [] := by cases fuel <;> rfl
  cases ps with
  | nil => simp [hnone, FollowAll, listBytes]
  | cons p ps => simp [hnone, listBytes, entryBytes_ne_nil]

theorem collect_succ {decoder : PostingListDecoder} (he : decoder.bytes ≠ []) :
    collect (fuel + 1) decoder = .ok ps ↔ ∃ p d qs, decoder.decodeNext = .ok (p, d) ∧
      collect fuel d = .ok qs ∧ p :: qs = ps := by
  rw [collect, next, if_neg (by simpa using he)]
  cases decoder.decodeNext with
  | error e => simp
  | ok decoded => obtain ⟨⟨document, frequency⟩, d⟩ := decoded; simp [bind_eq_ok]

theorem collect_eq_ok (hfuel : bytes.length ≤ fuel) :
    collect fuel ⟨bytes, previous, frequencies⟩ = .ok ps ↔
      FollowAll frequencies previous ps ∧ bytes = listBytes frequencies previous ps := by
  induction fuel generalizing bytes previous ps with
  | zero =>
    obtain rfl : bytes = [] := List.length_eq_zero_iff.mp (by omega)
    exact collect_nil
  | succ fuel ih =>
    by_cases he : bytes = []
    · subst he; exact collect_nil
    have hshort {d f rest} (hb : bytes = entryBytes frequencies d f ++ rest) :
        rest.length ≤ fuel := by
      have hpos := List.length_pos_of_ne_nil (entryBytes_ne_nil frequencies d f)
      rw [hb, List.length_append] at hfuel; omega
    rw [collect_succ he]
    constructor
    · rintro ⟨p, d, qs, hd, hqs, rfl⟩
      obtain ⟨hp, rest, rfl, hb⟩ := decodeNext_eq_ok.mp hd
      obtain ⟨hf, hr⟩ := (ih (hshort hb)).mp hqs
      exact ⟨⟨hp, hf⟩, by rw [hb, hr, listBytes]⟩
    · rintro ⟨hf, hl⟩
      cases ps with
      | nil => exact absurd hl he
      | cons p ps =>
        exact ⟨p, _, ps, decodeNext_eq_ok.mpr ⟨hf.1, _, rfl, hl⟩,
          (ih (hshort hl)).mpr ⟨hf.2, rfl⟩, rfl⟩

theorem push_eq_ok {e : PostingListEncoder} (h : Follows e.frequencies e.previous p) :
    e.push p.1 p.2 = .ok { e with
      bytes := e.bytes ++ entryBytes e.frequencies (distance e.previous p.1) p.2
      previous := some p.1
      len := e.len + 1 } := by
  obtain ⟨ha, -, hpos, -, hs⟩ := h
  have hd : PostingListEncoder.delta? e.previous p.1 = some (distance e.previous p.1) := by
    cases hp : e.previous with
    | none => rfl
    | some d => exact if_pos (ha d hp)
  have hr : (p.2 == 0 || (!e.frequencies && p.2 != 1)) = false := by
    cases hf : e.frequencies with
    | false => simp [hs hf]
    | true => simp only [Bool.not_true, Bool.false_and, Bool.or_false, beq_eq_false_iff_ne]; omega
  unfold PostingListEncoder.push
  rw [hd, hr]; rfl

theorem foldlM_push (e : PostingListEncoder) (h : FollowAll e.frequencies e.previous ps) :
    ∃ previous, ps.foldlM (fun e p => e.push p.1 p.2) e =
      .ok ⟨e.bytes ++ listBytes e.frequencies e.previous ps, previous,
        e.len + ps.length, e.frequencies⟩ := by
  induction ps generalizing e with
  | nil => exact ⟨e.previous, by simp [listBytes, pure, Except.pure]⟩
  | cons p ps ih =>
    obtain ⟨hp, htail⟩ := h
    obtain ⟨previous, hr⟩ := ih { e with
      bytes := e.bytes ++ entryBytes e.frequencies (distance e.previous p.1) p.2
      previous := some p.1
      len := e.len + 1 } htail
    refine ⟨previous, ?_⟩
    rw [List.foldlM_cons, push_eq_ok hp, ok_bind, hr]
    simp [listBytes, Nat.add_assoc, Nat.add_comm 1]

theorem encodePostings_eq (hne : ps ≠ []) (h : FollowAll frequencies none ps) :
    encodePostings frequencies ps = .ok (listBytes frequencies none ps) := by
  obtain ⟨previous, hf⟩ := foldlM_push (PostingListEncoder.new frequencies) h
  have hlen : ps.length ≠ 0 := by simpa using hne
  unfold encodePostings
  rw [hf, ok_bind]; simp [PostingListEncoder.finish, PostingListEncoder.new, hlen]

theorem decodePostings_eq_ok : decodePostings frequencies bytes = .ok ps ↔
      FollowAll frequencies none ps ∧ bytes = listBytes frequencies none ps :=
  collect_eq_ok (Nat.le_refl _)

/-- A posting the mode can store: without frequencies every frequency is one. -/
def InRange (frequencies : Bool) (p : Posting) : Prop :=
  p.1 < u32Size ∧ 0 < p.2 ∧ p.2 < u32Size ∧ (frequencies = false → p.2 = 1)

theorem followAll_of_pairwise
    (hsorted : ps.Pairwise fun p q => p.1 < q.1) (hp : ∀ d ∈ previous, ∀ p ∈ ps, d < p.1)
    (hr : ∀ p ∈ ps, InRange frequencies p) : FollowAll frequencies previous ps := by
  induction ps generalizing previous with
  | nil => trivial
  | cons p ps ih =>
    obtain ⟨hfirst, hrest⟩ := List.pairwise_cons.mp hsorted
    obtain ⟨hdoc, hpos, hf, hs⟩ := hr p List.mem_cons_self
    refine ⟨⟨fun d hd => hp d hd p List.mem_cons_self, hdoc, hpos, hf, hs⟩, ?_⟩
    refine ih hrest ?_ fun q hq => hr q (List.mem_cons_of_mem _ hq)
    rintro d ⟨⟩ q hq; exact hfirst q hq

/-- In both modes, an ascending list is read back from its encoding, and the bytes read to their
end are the encoding of the list read, so that no two byte strings stand for one list. -/
theorem posting_lists_have_one_encoding (frequencies : Bool) :
    (∀ ps : List Posting, ps ≠ [] → ps.Pairwise (fun p q => p.1 < q.1) →
      (∀ p ∈ ps, InRange frequencies p) →
      ∃ bytes, encodePostings frequencies ps = .ok bytes ∧
        decodePostings frequencies bytes = .ok ps) ∧
    (∀ (bytes : List UInt8) (ps : List Posting), bytes ≠ [] →
      decodePostings frequencies bytes = .ok ps → encodePostings frequencies ps = .ok bytes) ∧
    ∀ (a b : List UInt8) (ps : List Posting), decodePostings frequencies a = .ok ps →
      decodePostings frequencies b = .ok ps → a = b := by
  refine ⟨?_, ?_, ?_⟩
  · intro ps hne hsorted hr
    have hf : FollowAll frequencies none ps := followAll_of_pairwise hsorted (by simp) hr
    exact ⟨_, encodePostings_eq hne hf, decodePostings_eq_ok.mpr ⟨hf, rfl⟩⟩
  · intro bytes ps hbytes h
    obtain ⟨hf, rfl⟩ := decodePostings_eq_ok.mp h
    refine encodePostings_eq ?_ hf
    rintro rfl; exact hbytes rfl
  · intro a b ps ha hb
    rw [(decodePostings_eq_ok.mp ha).2, (decodePostings_eq_ok.mp hb).2]

/-- A list with a frequency of one and one above it. -/
theorem two_postings_read_back : ∃ bytes, encodePostings true [(3, 1), (300, 7)] = .ok bytes ∧
      decodePostings true bytes = .ok [(3, 1), (300, 7)] :=
  (posting_lists_have_one_encoding true).1 [(3, 1), (300, 7)] (by decide) (by decide)
    (by simp [InRange, u32Size])

example : encodePostings true [(3, 1), (300, 7)] = .ok [6, 0xd3, 4, 7] := by decide

end TraceDecay.Lexical
