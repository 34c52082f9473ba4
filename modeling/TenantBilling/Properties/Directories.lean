import TenantBilling.Base.Ensures
import TenantBilling.Model.Gateway
import TenantBilling.Properties.Signatures

/-!
# What a directory admits

The plain way to authenticate would be to ask every active key whether the token verifies
against it (`TenantBilling.Directory.Admits`). The dependency looks the token up by its hash
instead, which finds the same key (`TenantBilling.Directory.admits_some`), and it does so with
two selects, between which the operator may put another directory in place. What it returns is
still what one directory says, that which answers the first of them
(`TenantBilling.Timeline.ensures_getCurrentBusiness`).
-/

namespace TenantBilling

open Base

/-! ### One directory -/

section Directories

variable {crypto : Crypto} {d : Directory} {credentials : Option Credentials} {b b' : Uuid}

variable (crypto) in
/-- **The directory admits the credentials as the business**: the token in them verifies against
an active key of the business. -/
def Directory.Admits (d : Directory) (credentials : Option Credentials) (b : Uuid) : Prop :=
  ∃ c ∈ credentials, c.Bearer ∧ strip c.credentials ≠ "" ∧
    ∃ k ∈ d.apiKeys, k.isActive = true ∧ k.businessId = b ∧
      verifyApiKey crypto (strip c.credentials) k.keyHash.text = .ok true

theorem verifyApiKey_eq_true {plaintext storedHash : String} :
    verifyApiKey crypto plaintext storedHash = .ok true ↔
      storedHash = hashApiKey crypto plaintext := by
  unfold verifyApiKey compareDigest
  constructor
  · intro h
    split at h
    · exact (of_decide_eq_true (Except.ok.inj h)).symm
    · cases h
  · rintro rfl
    rw [if_pos ⟨HexDigest.ascii _, HexDigest.ascii _⟩, decide_eq_true rfl]

/-- No two keys have one hash. -/
theorem Directory.key_unique {k k' : ApiKey} (hk : k ∈ d.apiKeys) (hk' : k' ∈ d.apiKeys)
    (h : k.keyHash.text = k'.keyHash.text) : k = k' :=
  List.inj_on_of_nodup_map d.hashUnique hk hk' (Varchar.ext h)

theorem Directory.eval_activeKey {keyHash : String} {k : ApiKey} :
    d.eval (.activeKey keyHash) = some k ↔
      k ∈ d.apiKeys ∧ k.isActive = true ∧ k.keyHash.text = keyHash := by
  constructor
  · intro h
    have hk := List.find?_some h
    rw [Bool.and_eq_true, decide_eq_true_iff] at hk
    exact ⟨List.mem_of_find?_eq_some h, hk.2, hk.1⟩
  · rintro ⟨hk, hactive, rfl⟩
    cases heval : d.eval (.activeKey k.keyHash.text) with
    | none => exact absurd hactive (by simpa using List.find?_eq_none.mp heval k hk)
    | some k' =>
      have hk' := List.find?_some heval
      rw [Bool.and_eq_true, decide_eq_true_iff] at hk'
      rw [Directory.key_unique hk (List.mem_of_find?_eq_some heval) hk'.1.symm]

/-- **The lookup by the hash finds what asking each key would.** -/
theorem Directory.admits_some {c : Credentials} (hbearer : c.Bearer)
    (hne : strip c.credentials ≠ "") : d.Admits crypto (some c) b ↔
      ∃ k, d.eval (.activeKey (hashApiKey crypto (strip c.credentials))) = some k ∧
        k.businessId = b := by
  constructor
  · rintro ⟨c', hc, -, -, k, hk, hactive, hb, hverify⟩
    obtain rfl := Option.some.inj hc
    exact ⟨k, eval_activeKey.mpr ⟨hk, hactive, verifyApiKey_eq_true.mp hverify⟩, hb⟩
  · rintro ⟨k, heval, hb⟩
    obtain ⟨hk, hactive, hhash⟩ := eval_activeKey.mp heval
    exact ⟨c, rfl, hbearer, hne, k, hk, hactive, hb, verifyApiKey_eq_true.mpr hhash⟩

/-- The credentials are those of one business at most. -/
theorem Directory.Admits.unique (h : d.Admits crypto credentials b)
    (h' : d.Admits crypto credentials b') : b = b' := by
  obtain ⟨c, rfl, hbearer, hne, -⟩ := id h
  obtain ⟨k, hk, rfl⟩ := (Directory.admits_some hbearer hne).mp h
  obtain ⟨k', hk', rfl⟩ := (Directory.admits_some hbearer hne).mp h'
  rw [Option.some.inj (hk.symm.trans hk')]

variable (crypto) in
/-- **One of the directories decides**: it admits the credentials as the business that is
returned, or as none if they are refused. -/
def Decides (credentials : Option Credentials) (ds : List Directory) :
    Except HttpException Business → Prop
  | .ok business => ∃ d ∈ ds, d.Admits crypto credentials business.id
  | .error e => e = unauthorized ∧ ∃ d ∈ ds, ∀ b, ¬d.Admits crypto credentials b

end Directories

/-! ### One directory after another -/

/-- The directories that were in effect since some moment: those that have been replaced, and the
one that is in effect now. -/
structure Timeline where
  past : List Directory
  now : Directory

namespace Timeline

/-- All of them, in order. -/
def all (t : Timeline) : List Directory := t.past ++ [t.now]

theorem now_mem (t : Timeline) : t.now ∈ t.all :=
  List.mem_append_right _ (List.mem_singleton_self _)

/-- **The dependency among the operators**: directories are replaced between its selects, and
each select is answered by the one in effect. -/
def setting : Setting AuthQuery AuthQuery.Result Timeline where
  rely t t' := t.all <+: t'.all ∧ t.now.Keeps t'.now
  answers t q r t' := t' = t ∧ r = t.now.eval q
  refl _ := ⟨List.prefix_rfl, fun _ h => h⟩
  trans h h' := ⟨h.1.trans h'.1, fun i hi => h'.2 i (h.2 i hi)⟩

section Ensures

variable (crypto : Crypto) (credentials : Option Credentials) (t : Timeline)

theorem ensures_unauthorized (h : ∃ d ∈ t.all, ∀ b, ¬d.Admits crypto credentials b) :
    Prog.Ensures setting (fun t x => Decides crypto credentials t.all x) t
      (.ret (.error unauthorized)) := by
  rw [Prog.ensures_ret]
  intro t' hrely
  obtain ⟨d, hd, hnot⟩ := h
  exact ⟨rfl, d, hrely.1.subset hd, hnot⟩

/-- **What the dependency returns is what it would have returned at once.** The directory that
decides is the one that answers the lookup of the key. -/
theorem ensures_getCurrentBusiness :
    Prog.Ensures setting (fun t x => Decides crypto credentials t.all x) t
      (getCurrentBusiness crypto credentials) := by
  have hnever : (∀ d b, ¬Directory.Admits crypto d credentials b) →
      Prog.Ensures setting (fun t x => Decides crypto credentials t.all x) t
        (.ret (.error unauthorized)) :=
    fun h => ensures_unauthorized crypto credentials t ⟨t.now, t.now_mem, h t.now⟩
  unfold getCurrentBusiness
  cases credentials with
  | none =>
    refine hnever fun d b h => ?_
    obtain ⟨c, hc, -⟩ := h
    cases hc
  | some c =>
    dsimp only
    split
    case isTrue hbearer =>
      refine hnever fun d b h => ?_
      obtain ⟨c', hc, hbearer', -⟩ := h
      exact hbearer (Option.some.inj hc ▸ hbearer')
    case isFalse hbearer =>
    have hbearer := not_not.mp hbearer
    split
    case isTrue hempty =>
      refine hnever fun d b h => ?_
      obtain ⟨c', hc, -, hne, -⟩ := h
      exact hne (Option.some.inj hc ▸ hempty)
    case isFalse hne =>
    rw [Prog.ensures_op]
    rintro t₁ key t₂ - ⟨rfl, hkey⟩
    cases key with
    | none =>
      refine ensures_unauthorized crypto _ _ ⟨t₂.now, t₂.now_mem, fun b h => ?_⟩
      obtain ⟨k, heval, -⟩ := (Directory.admits_some hbearer hne).mp h
      cases hkey.trans heval
    | some k =>
      have hadmits : t₂.now.Admits crypto (some c) k.businessId :=
        (Directory.admits_some hbearer hne).mpr ⟨k, hkey.symm, rfl⟩
      obtain ⟨hk, -⟩ := Directory.eval_activeKey.mp hkey.symm
      rw [Prog.ensures_op]
      rintro t₃ business t₄ hrely ⟨rfl, hbusiness⟩
      cases business with
      | none =>
        -- the business was there with its key, and has not been deleted since
        obtain ⟨b, hb, hid⟩ := List.mem_map.mp (hrely.2 _ (t₂.now.owned k hk))
        exact absurd hid (Table.find?_eq_none.mp hbusiness.symm b hb)
      | some business =>
        rw [Prog.ensures_ret]
        intro t' hrely'
        have hid : business.id = k.businessId := (Table.find?_eq_some.mp hbusiness.symm).2
        refine ⟨t₂.now, (hrely.1.trans hrely'.1).subset t₂.now_mem, ?_⟩
        rwa [hid]

end Ensures

end Timeline

end TenantBilling
