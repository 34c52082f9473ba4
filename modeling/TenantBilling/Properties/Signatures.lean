import TenantBilling.Model.Verification
import TenantBilling.Properties.Conditions

/-!
# Which signatures are accepted

`verify_signature` accepts the header it should and no other: every item has a value, the last
timestamp is read as a number that is fresh, and the last signature is the one of that timestamp
and the body (`TenantBilling.SignatureValid`). It does raise where it should refuse, though: a
signature that is not ASCII reaches `compare_digest`, which does not compare such texts
(`TenantBilling.verify_signature_iff`).

A signature that was captured is good for the body and the time it was made for, and for nothing
else (`TenantBilling.signature_bound`).
-/

namespace TenantBilling

open Base

variable {header secret body : String} {t : ℤ} {sig : String}

/-! ### The parser -/

/-- **What is read in a header**: every item has a key and a value, and among the items of a key the
last one counts. -/
structure HeaderReads (header : String) (t : ℤ) (sig : String) : Prop where
  items : ∀ item ∈ splitText ',' header, '=' ∈ item.toList
  timestamp : ∃ text, LastValue '=' (splitText ',' header) "t" text ∧ intOfText? text = some t
  signature : LastValue '=' (splitText ',' header) "v1" sig

theorem parseSignature_eq_some : parseSignature header = some (t, sig) ↔
    HeaderReads header t sig := by
  have ht : '=' ∉ "t".toList := by decide
  have hv1 : '=' ∉ "v1".toList := by decide
  constructor
  · intro h
    obtain ⟨parts, hparts, h⟩ := Option.bind_eq_some_iff.mp h
    obtain ⟨text, htext, h⟩ := Option.bind_eq_some_iff.mp h
    obtain ⟨t', ht', h⟩ := Option.bind_eq_some_iff.mp h
    obtain ⟨sig', hsig', h⟩ := Option.bind_eq_some_iff.mp h
    obtain ⟨rfl, rfl⟩ := Prod.mk.inj (Option.some.inj h)
    exact ⟨exists_mapM_splitFirst?.mp ⟨parts, hparts⟩,
      ⟨text, (lookup_reverse_eq_some hparts ht).mp htext, ht'⟩,
      (lookup_reverse_eq_some hparts hv1).mp hsig'⟩
  · rintro ⟨hitems, ⟨text, htext, hread⟩, hsig⟩
    obtain ⟨parts, hparts⟩ := exists_mapM_splitFirst?.mpr hitems
    refine Option.bind_eq_some_iff.mpr ⟨parts, hparts, Option.bind_eq_some_iff.mpr
      ⟨text, (lookup_reverse_eq_some hparts ht).mpr htext, Option.bind_eq_some_iff.mpr
        ⟨t, hread, Option.bind_eq_some_iff.mpr ⟨sig, ?_, rfl⟩⟩⟩⟩
    exact (lookup_reverse_eq_some hparts hv1).mpr hsig

/-! ### Acceptance -/

variable (crypto : Crypto)

/-- **The signature of a fresh header.** -/
def SignatureValid (secret body header : String) (maxAge now : ℤ) : Prop :=
  ∃ t sig, HeaderReads header t sig ∧ |now - t| ≤ maxAge ∧
    sig = (crypto.hmacSha256 secret (toString t ++ "." ++ body)).text

/-- The header is fresh, but its signature is no ASCII text. -/
def SignatureStrange (header : String) (maxAge now : ℤ) : Prop :=
  ∃ t sig, HeaderReads header t sig ∧ |now - t| ≤ maxAge ∧ ¬ Ascii sig

theorem HexDigest.ascii (d : HexDigest) : Ascii d.text := fun c hc =>
  (show Ascii "0123456789abcdef" by decide) c (d.hex c hc)

theorem HeaderReads.unique {t' : ℤ} {sig' : String} (h : HeaderReads header t sig)
    (h' : HeaderReads header t' sig') : t = t' ∧ sig = sig' := by
  have heq := (parseSignature_eq_some.mpr h).symm.trans (parseSignature_eq_some.mpr h')
  exact Prod.mk.inj (Option.some.inj heq)

variable {crypto} {maxAge now : ℤ}

theorem verifySignature_of_not_reads (h : ∀ t sig, ¬ HeaderReads header t sig) :
    verifySignature crypto secret body header maxAge now = .ok false := by
  have hnone : parseSignature header = none :=
    Option.eq_none_iff_forall_ne_some.mpr fun x hx => h x.1 x.2 (parseSignature_eq_some.mp hx)
  rw [verifySignature, hnone]

/-- **What becomes of a header that is read**: a stale one is refused, and a fresh one is
compared. -/
theorem verifySignature_of_reads (h : HeaderReads header t sig) :
    verifySignature crypto secret body header maxAge now =
      if |now - t| ≤ maxAge then
        compareDigest (crypto.hmacSha256 secret (toString t ++ "." ++ body)).text sig
      else .ok false := by
  obtain ⟨text, -, hread⟩ := h.timestamp
  have htext : strOfInt t = .ok (toString t) := if_pos (printable_of_intOfText? hread)
  rw [verifySignature, parseSignature_eq_some.mpr h]
  by_cases hfresh : |now - t| ≤ maxAge
  · rw [if_pos hfresh]
    change (if |now - t| > maxAge then _ else (strOfInt t >>= fun text => _)) = _
    rw [if_neg (not_lt.mpr hfresh), htext]
    rfl
  · rw [if_neg hfresh]
    exact if_pos (not_le.mp hfresh)

/-- **A header is accepted only if it is valid.** -/
theorem signatureValid_of_verify
    (h : verifySignature crypto secret body header maxAge now = .ok true) :
    SignatureValid crypto secret body header maxAge now := by
  by_cases hreads : ∃ t sig, HeaderReads header t sig
  · obtain ⟨t, sig, hreads⟩ := hreads
    rw [verifySignature_of_reads hreads] at h
    split at h
    · next hfresh =>
      unfold compareDigest at h
      split at h
      · exact ⟨t, sig, hreads, hfresh, (of_decide_eq_true (Except.ok.inj h)).symm⟩
      · exact absurd h (by simp)
    · exact absurd h (by simp)
  · rw [verifySignature_of_not_reads fun t sig h => hreads ⟨t, sig, h⟩] at h
    exact absurd h (by simp)

/-- **A header is accepted exactly if it is valid, and refused otherwise**, unless its signature is
no ASCII text while the rest is as it should be. -/
theorem verify_signature_iff (crypto : Crypto) (secret body header : String) (maxAge now : ℤ) :
    (∃ accepted, verifySignature crypto secret body header maxAge now = .ok accepted ∧
      (accepted = true ↔ SignatureValid crypto secret body header maxAge now)) ↔
    ¬ SignatureStrange header maxAge now := by
  by_cases hreads : ∃ t sig, HeaderReads header t sig ∧ |now - t| ≤ maxAge
  · obtain ⟨t, sig, hreads, hfresh⟩ := hreads
    have hstrange : SignatureStrange header maxAge now ↔ ¬ Ascii sig := by
      refine ⟨?_, fun h => ⟨t, sig, hreads, hfresh, h⟩⟩
      rintro ⟨t', sig', hreads', -, hsig'⟩
      rwa [(hreads.unique hreads').2]
    have hvalid : SignatureValid crypto secret body header maxAge now ↔
        sig = (crypto.hmacSha256 secret (toString t ++ "." ++ body)).text := by
      refine ⟨?_, fun h => ⟨t, sig, hreads, hfresh, h⟩⟩
      rintro ⟨t', sig', hreads', -, hsig'⟩
      obtain ⟨rfl, rfl⟩ := hreads.unique hreads'
      exact hsig'
    rw [hstrange, hvalid, verifySignature_of_reads hreads, if_pos hfresh, not_not, compareDigest]
    by_cases hascii : Ascii sig
    · rw [if_pos ⟨HexDigest.ascii _, hascii⟩]
      exact ⟨fun _ => hascii, fun _ => ⟨_, rfl, by rw [decide_eq_true_iff, eq_comm]⟩⟩
    · rw [if_neg fun h => hascii h.2]
      exact ⟨fun h => absurd h (by simp), fun h => absurd h hascii⟩
  · -- what is not read or is stale is refused, and it is not valid
    have hvalid : ¬ SignatureValid crypto secret body header maxAge now := by
      rintro ⟨t, sig, h, hfresh, -⟩
      exact hreads ⟨t, sig, h, hfresh⟩
    have hrefused : verifySignature crypto secret body header maxAge now = .ok false := by
      by_cases h : ∃ t sig, HeaderReads header t sig
      · obtain ⟨t, sig, h⟩ := h
        rw [verifySignature_of_reads h, if_neg fun hfresh => hreads ⟨t, sig, h, hfresh⟩]
      · exact verifySignature_of_not_reads fun t sig h' => h ⟨t, sig, h'⟩
    refine ⟨fun _ => ?_, fun _ => ⟨false, hrefused, by simp [hvalid]⟩⟩
    rintro ⟨t, sig, h, hfresh, -⟩
    exact hreads ⟨t, sig, h, hfresh⟩

theorem not_verify_signature : ¬ ∀ (crypto : Crypto) (secret body header : String) (maxAge now : ℤ),
    ∃ accepted, verifySignature crypto secret body header maxAge now = .ok accepted ∧
      (accepted = true ↔ SignatureValid crypto secret body header maxAge now) := by
  intro h
  obtain ⟨accepted, hok, -⟩ := h sampleCrypto "whsec" "paid" "t=0,v1=é" 300 0
  have herror : verifySignature sampleCrypto "whsec" "paid" "t=0,v1=é" 300 0 =
      .error (.python "TypeError") := by decide +kernel
  rw [herror] at hok
  exact absurd hok (by simp)

/-! ### What is signed -/

@[ext] theorem HexDigest.ext {d d' : HexDigest} (h : d.text = d'.text) : d = d' := by
  cases d
  cases d'
  congr

/-- **The signed text determines the time and the body.** -/
theorem signed_inj {t' : ℤ} {body' : String}
    (h : toString t ++ "." ++ body = toString t' ++ "." ++ body') : t = t' ∧ body = body' := by
  have hdot : ∀ z : ℤ, '.' ∉ (toString z).toList := by
    intro z hz
    rcases mem_toString hz with hdigit | hminus
    · exact absurd hdigit (by decide)
    · exact absurd hminus (by decide)
  have hlist : ∀ a b : String, (a ++ "." ++ b).toList = a.toList ++ '.' :: b.toList := by
    intro a b
    simp
  obtain ⟨htime, hbody⟩ := append_sep_inj (hdot t) (hdot t')
    ((hlist _ _).symm.trans ((congrArg String.toList h).trans (hlist _ _)))
  exact ⟨toString_injective (String.toList_inj.mp htime), String.toList_inj.mp hbody⟩

/-- **The header has two items**, the time and the digest. -/
theorem splitText_signPayload (crypto : Crypto) (secret body : String) (t : ℤ) :
    splitText ',' (signPayload crypto secret body t).1 = [entry '=' "t" (toString t),
      entry '=' "v1" (crypto.hmacSha256 secret (toString t ++ "." ++ body)).text] := by
  have hdigest : ∀ d : HexDigest, ',' ∉ (entry '=' "v1" d.text).toList := by
    intro d hmem
    rw [toList_entry, List.mem_append, List.mem_cons] at hmem
    rcases hmem with h | h | h
    · exact absurd h (by decide)
    · exact absurd h (by decide)
    · exact absurd (d.hex ',' h) (by decide)
  have htime : ',' ∉ (entry '=' "t" (toString t)).toList := by
    intro hmem
    rw [toList_entry, List.mem_append, List.mem_cons] at hmem
    rcases hmem with h | h | h
    · exact absurd h (by decide)
    · exact absurd h (by decide)
    · rcases mem_toString h with hdigit | hminus
      · exact absurd hdigit (by decide)
      · exact absurd hminus (by decide)
  have hheader : (signPayload crypto secret body t).1 = entry '=' "t" (toString t) ++
      String.singleton ',' ++
        entry '=' "v1" (crypto.hmacSha256 secret (toString t ++ "." ++ body)).text := by
    rw [← String.toList_inj]
    simp [signPayload, entry]
  rw [hheader, splitText_append _ htime, splitText_of_notMem (hdigest _)]

/-- What is read in a header that was made for a delivery. -/
theorem headerReads_signPayload (crypto : Crypto) (secret body : String) (ht : Printable t) :
    HeaderReads (signPayload crypto secret body t).1 t
      (crypto.hmacSha256 secret (toString t ++ "." ++ body)).text := by
  have hread : intOfText? (toString t) = some t := by rw [intOfText?_toString, if_pos ht]
  have hother : ¬ HasKey '=' "t"
      (entry '=' "v1" (crypto.hmacSha256 secret (toString t ++ "." ++ body)).text) := by
    rw [hasKey_entry (by decide) (by decide)]
    decide
  constructor
  · rw [splitText_signPayload]
    simp [toList_entry]
  · refine ⟨toString t, ?_, hread⟩
    rw [splitText_signPayload]
    exact ⟨[], _, rfl, by simpa using hother⟩
  · rw [splitText_signPayload]
    exact ⟨[_], [], rfl, by simp⟩

/-- **A captured signature is good for nothing else.** A header with the signature that was made for
a body at a time is accepted for no other body and with no other time, and only while that time is
fresh, provided no other text has the digest of the signed one. -/
theorem signature_bound (crypto : Crypto) (secret body₀ body header digest : String)
    (t₀ maxAge now : ℤ)
    (hinj : ∀ text, crypto.hmacSha256 secret text =
      crypto.hmacSha256 secret (toString t₀ ++ "." ++ body₀) → text = toString t₀ ++ "." ++ body₀)
    (hdigest : LastValue '=' (splitText ',' (signPayload crypto secret body₀ t₀).1) "v1" digest)
    (hheader : LastValue '=' (splitText ',' header) "v1" digest)
    (hok : verifySignature crypto secret body header maxAge now = .ok true) :
    body = body₀ ∧ |now - t₀| ≤ maxAge ∧
      ∃ text, LastValue '=' (splitText ',' header) "t" text ∧ intOfText? text = some t₀ := by
  obtain ⟨t, sig, hreads, hfresh, hsig⟩ := signatureValid_of_verify hok
  -- the digest that was captured is the one of the text that the receiver computes
  have hsigned : digest = (crypto.hmacSha256 secret (toString t₀ ++ "." ++ body₀)).text := by
    refine hdigest.unique ?_
    rw [splitText_signPayload]
    exact ⟨[_], [], rfl, by simp⟩
  have hsame : crypto.hmacSha256 secret (toString t ++ "." ++ body) =
      crypto.hmacSha256 secret (toString t₀ ++ "." ++ body₀) := by
    apply HexDigest.ext
    rw [← hsig, ← hsigned]
    exact hreads.signature.unique hheader
  obtain ⟨rfl, rfl⟩ := signed_inj (hinj _ hsame)
  exact ⟨rfl, hfresh, hreads.timestamp⟩

/-- A keyed hash that is right on the body `paid` at time zero under the secret `whsec`. -/
def capturingCrypto : Crypto where
  sha256 := sampleCrypto.sha256
  hmacSha256 secret text :=
    if secret = "whsec" ∧ text = "0.paid" then
      ⟨"d7348f8f79f9fd12dedc3e606673a664d4fc77e8b39c5ee15862aaa442c8069c", by decide,
        List.forall_iff_forall_mem.mp (by decide)⟩
    else sampleCrypto.hmacSha256 secret text

theorem signature_bound_capturing :
    let header := "t= +0_0,v1=d7348f8f79f9fd12dedc3e606673a664d4fc77e8b39c5ee15862aaa442c8069c"
    "paid" = "paid" ∧ |(300 : ℤ) - 0| ≤ 300 ∧
      ∃ text, LastValue '=' (splitText ',' header) "t" text ∧ intOfText? text = some 0 := by
  intro header
  let digest := "d7348f8f79f9fd12dedc3e606673a664d4fc77e8b39c5ee15862aaa442c8069c"
  refine signature_bound capturingCrypto "whsec" "paid" "paid" header digest 0 300 300 ?_ ?_ ?_
    (by decide +kernel)
  · intro text h
    by_contra hne
    have hother : capturingCrypto.hmacSha256 "whsec" text = sampleCrypto.hmacSha256 "whsec" text :=
      if_neg fun h => hne h.2
    have hdigests : (sampleCrypto.hmacSha256 "whsec" "").text ≠
        (capturingCrypto.hmacSha256 "whsec" (toString (0 : ℤ) ++ "." ++ "paid")).text := by
      decide +kernel
    exact hdigests (congrArg HexDigest.text (hother.symm.trans h))
  · rw [splitText_signPayload]
    exact ⟨[_], [], rfl, by simp⟩
  · refine ⟨["t= +0_0"], [], ?_, by simp⟩
    decide +kernel

end TenantBilling
