import TenantBilling.Properties.Gateway

/-!
# The life of a key

What the operator's keys come to, over whole runs. A generated key is honoured from the moment its
row is inserted, for whoever arrives as long as the row is in place, and it is good for nothing
once no active key has its hash (`TenantBilling.Gateway.key_lifetime`). A business none of whose
keys is active is left alone: once what was under way for it has ended, nothing of it is
written any more (`TenantBilling.Gateway.revoked_left_alone`).
-/

namespace TenantBilling

open Base World

/-! ### Runs among the operators -/

/-- The operator only puts directories in place that have the property. -/
def Administered (P : Directory → Prop) (_ : Gateway) : GatewayEvent → Prop
  | .administer d => P d
  | _ => True

instance (P : Directory → Prop) [DecidablePred P] (g : Gateway) :
    ∀ e, Decidable (Administered P g e)
  | .administer d => inferInstanceAs (Decidable (P d))
  | .arrive .. | .look _ | .enter _ | .inner _ => inferInstanceAs (Decidable True)

/-- A request that has arrived, at a later time. -/
structure Arrival.Later (a a' : Arrival) : Prop where
  credentials : a'.credentials = a.credentials
  session : a'.session = none → a.session = none
  prog : ∀ x, a.prog = .ret x → a'.prog = .ret x

namespace Gateway

variable {crypto : Crypto} {g g' : Gateway} {e : GatewayEvent} {P : Directory → Prop}

theorem Moves.directory (hmove : g.Moves crypto e g') (hnow : P g.directory)
    (hC : Administered P g e) : P g'.directory := by
  cases hmove with
  | administer hkeeps => exact hC
  | _ => exact hnow

/-- **What a move is to a request**: it has arrived with it, or was there, and then the operator is
the one who adds a directory to those in effect since. -/
theorem Moves.arrival (hmove : g.Moves crypto e g') (h : g.Sound crypto) {n : ℕ} {a' : Arrival}
    (ha' : g'.arrivals[n]? = some a') :
    n = g.arrivals.length ∧ g'.since a' = [g.directory] ∨
      ∃ a, g.arrivals[n]? = some a ∧ a.Later a' ∧
        ∀ d ∈ g'.since a', d ∈ g.since a ∨ e = .administer d := by
  have hsame : g.arrivals[n]? = some a' → g'.past = g.past → g'.directory = g.directory →
      ∃ a, g.arrivals[n]? = some a ∧ a.Later a' ∧
        ∀ d ∈ g'.since a', d ∈ g.since a ∨ e = .administer d := by
    intro ha hpast hdir
    refine ⟨a', ha, ⟨rfl, id, fun _ hx => hx⟩, fun d hd => Or.inl ?_⟩
    rwa [since, hpast, hdir] at hd
  cases hmove with
  | arrive credentials req =>
    rcases getElem?_concat_eq_some ha' with ha | ⟨rfl, rfl⟩
    · exact Or.inr (hsame ha rfl rfl)
    · refine Or.inl ⟨rfl, ?_⟩
      change g.past.drop g.past.length ++ [g.directory] = [g.directory]
      rw [List.drop_length, List.nil_append]
  | @look m a q k ha hprog =>
    rcases getElem?_set_eq_some ha' with ⟨-, ha'⟩ | ⟨rfl, rfl⟩
    · exact Or.inr (hsame ha' rfl rfl)
    · refine Or.inr ⟨a, ha, ⟨rfl, id, fun x hx => ?_⟩, fun d hd => Or.inl hd⟩
      cases hprog.symm.trans hx
  | @enter m a business s ha hprog hnew hstep =>
    rcases getElem?_set_eq_some ha' with ⟨-, ha'⟩ | ⟨rfl, rfl⟩
    · exact Or.inr (hsame ha' rfl rfl)
    · refine Or.inr ⟨a, ha, ⟨rfl, fun hnone => ?_, fun _ hx => hx⟩, fun d hd => Or.inl hd⟩
      cases hnone
  | @administer d hkeeps =>
    refine Or.inr ⟨a', ha', ⟨rfl, id, fun _ hx => hx⟩, fun d' hd' => ?_⟩
    change d' ∈ (g.past ++ [g.directory]).drop a'.age ++ [d] at hd'
    rw [List.drop_append_of_le_length (h.holds n a' ha').age] at hd'
    rcases List.mem_append.mp hd' with hd' | hd'
    · exact Or.inl hd'
    · exact Or.inr (by rw [List.mem_singleton.mp hd'])
  | inner hreq hstep => exact Or.inr (hsame ha' rfl rfl)

end Gateway

/-- No key of the business is active. -/
def Directory.Without (b : Uuid) (d : Directory) : Prop :=
  ∀ k ∈ d.apiKeys.rows, k.businessId = b → k.isActive = false

instance (b : Uuid) : DecidablePred (Directory.Without b) := fun d =>
  List.decidableBAll (fun k : ApiKey => k.businessId = b → k.isActive = false) d.apiKeys.rows

theorem Directory.Without.not_admits {crypto : Crypto} {d : Directory} {b : Uuid}
    {credentials : Option Credentials} (h : d.Without b) : ¬d.Admits crypto credentials b := by
  rintro ⟨c, -, -, -, k, hk, hactive, hb, -⟩
  cases (h k hk hb).symm.trans hactive

/-! ### A business without a key -/

/-- The requests of the business have ended. -/
def System.Ended (b : Uuid) (s : System) : Prop :=
  ∀ (p : Pid) (proc : Proc), s.procs[p]? = some proc → ∀ business req,
    proc.job = .request business req → business.id = b → proc.alive = true →
      ∃ x, proc.prog = .ret x

/-- What has ended stays so. -/
theorem System.Ended.step {crypto : Crypto} {s t : System} {e : Event} {b : Uuid} (h : s.Ended b)
    (hs : s.Reachable crypto) (hstep : s.step crypto e = some t)
    (hbegins : ∀ job ∈ e.begins, ∀ business req, job = .request business req → business.id ≠ b) :
    t.Ended b := by
  obtain ⟨φ, hsound⟩ := hs.sound
  obtain ⟨φ', hmove⟩ := System.moves_of_step hsound.tracks hstep
  intro q proc hproc business req heq hid halive
  cases hmove with
  | start job =>
    rcases Gateway.getElem?_concat_eq_some hproc with hproc | ⟨-, rfl⟩
    · exact h q proc hproc business req heq hid halive
    · exact absurd hid (hbegins job (List.mem_singleton_self job) business req heq)
  | kill hproc' =>
    rcases Gateway.getElem?_set_eq_some hproc with ⟨-, hproc⟩ | ⟨-, rfl⟩
    · exact h q proc hproc business req heq hid halive
    · cases halive
  | answer hproc' hans hnext =>
    rcases Gateway.getElem?_set_eq_some hproc with ⟨-, hproc⟩ | ⟨rfl, rfl⟩
    · exact h q proc hproc business req heq hid halive
    · -- a program that has a statement to issue has not ended
      obtain ⟨x, hx⟩ := h _ _ hproc' business req heq hid rfl
      cases hx

namespace Gateway

variable {crypto : Crypto} {g g' : Gateway} {e : GatewayEvent} {b : Uuid}

/-- **Nothing of the business is under way**: what has arrived for it is refused or let in already,
and what was let in has ended. -/
structure Quiet (crypto : Crypto) (b : Uuid) (g : Gateway) : Prop where
  arrivals : ∀ (n : ℕ) (a : Arrival), g.arrivals[n]? = some a → a.session = none →
    (∃ e, a.prog = .ret (.error e)) ∨ ∀ d ∈ g.since a, ¬d.Admits crypto a.credentials b
  ended : g.system.Ended b

/-- What has been let in is not a request of a business that is quiet. -/
theorem Quiet.business_ne (hquiet : g.Quiet crypto b) (h : g.Sound crypto) {n : ℕ} {a : Arrival}
    {business : Business} (ha : g.arrivals[n]? = some a) (hnew : a.session = none)
    (hprog : a.prog = .ret (.ok business)) : business.id ≠ b := by
  rintro rfl
  have hens := (h.holds n a ha).ensures
  rw [hprog] at hens
  obtain ⟨d, hd, hadmits⟩ := hens.returned
  rcases hquiet.arrivals n a ha hnew with ⟨e, herror⟩ | hnone
  · cases hprog.symm.trans herror
  · exact hnone d hd hadmits

/-- **A business without a key stays quiet.** -/
theorem Quiet.move (hquiet : g.Quiet crypto b) (h : g.Sound crypto) (hnow : g.directory.Without b)
    (hmove : g.Moves crypto e g') (hC : Administered (Directory.Without b) g e) :
    g'.Quiet crypto b ∧ g'.directory.Without b := by
  refine ⟨⟨fun n a ha hnew => ?_, ?_⟩, hmove.directory hnow hC⟩
  · rcases hmove.arrival h ha with ⟨-, hsince⟩ | ⟨a₀, ha₀, hlater, hsince⟩
    · refine Or.inr fun d hd => ?_
      rw [hsince, List.mem_singleton] at hd
      exact hd ▸ hnow.not_admits
    · refine (hquiet.arrivals n a₀ ha₀ (hlater.session hnew)).imp ?_ fun hnone d hd => ?_
      · rintro ⟨x, hx⟩
        exact ⟨x, hlater.prog _ hx⟩
      · rw [hlater.credentials]
        rcases hsince d hd with hd | rfl
        · exact hnone d hd
        · exact Directory.Without.not_admits hC
  · cases hmove with
    | @enter m a business s ha hprog hnew hstep =>
      refine hquiet.ended.step h.reachable hstep ?_
      rintro job hjob business' req rfl
      obtain ⟨rfl, -⟩ := Job.request.inj (List.mem_singleton.mp hjob)
      exact hquiet.business_ne h ha hnew hprog
    | @inner e' s hreq hstep =>
      refine hquiet.ended.step h.reachable hstep ?_
      rintro job hjob business req rfl
      cases e' with
      | start job' =>
        obtain rfl := List.mem_singleton.mp hjob
        exact absurd trivial hreq
      | _ => cases hjob
    | _ => exact hquiet.ended

/-- The rows that are there stay. -/
theorem Sound.grows {C : Gateway → GatewayEvent → Prop} (h : g.Sound crypto)
    (hrun : Reaches (Gateway.step crypto) C g g') :
    g.system.world.db.Grows g'.system.world.db := by
  refine (hrun.invariant (I := fun u => u.Sound crypto ∧ g.system.world.db.Grows u.system.world.db)
    ⟨h, .refl _⟩ fun u e v hu _ hstep => ?_).2
  refine ⟨hu.1.step hstep, hu.2.trans ?_⟩
  rcases (moves_of_step hstep).system with heq | ⟨e', hstep'⟩
  · rw [heq]
    exact .refl _
  · exact (hu.1.reachable.later (.single ⟨e', trivial, hstep'⟩)).db.grows

end Gateway

/-- A row has one owner. -/
theorem Database.Owns.unique {db : Database} {b b' : Uuid} {r : RowRef} (h : db.Owns b r)
    (h' : db.Owns b' r) : b = b' := by
  obtain ⟨row, hrow, hb⟩ := h
  obtain ⟨row', hrow', hb'⟩ := h'
  obtain rfl := Option.some.inj (hrow.symm.trans hrow')
  cases row with
  | customer c => exact hb.symm.trans hb'
  | invoice v => exact hb.symm.trans hb'
  | endpoint e => exact hb.symm.trans hb'
  | lineItem li =>
    obtain ⟨v, hv, rfl⟩ := hb
    obtain ⟨v', hv', rfl⟩ := hb'
    rw [Option.some.inj (hv.symm.trans hv')]
  | attempt a =>
    obtain ⟨v, hv, rfl⟩ := hb
    obtain ⟨v', hv', rfl⟩ := hb'
    rw [Option.some.inj (hv.symm.trans hv')]
  | delivery d =>
    obtain ⟨e, he, rfl⟩ := hb
    obtain ⟨e', he', rfl⟩ := hb'
    rw [Option.some.inj (he.symm.trans he')]

namespace Gateway

variable {crypto : Crypto} {g g' : Gateway} {b : Uuid}

/-- **While a business is quiet, a commit to one of its rows is the worker's**, and of a delivery
that is there. -/
theorem Quiet.changes (hquiet : g.Quiet crypto b) (h : g.Sound crypto) {e : GatewayEvent}
    (hmove : g.Moves crypto e g') {r : RowRef}
    (hrow : g'.system.world.db.row r ≠ g.system.world.db.row r)
    (hown : ∀ b', g'.system.world.db.Owns b' r → b' = b) :
    ∃ (e' : Event) (p : Pid), e = .inner e' ∧ e'.pid? = some p ∧ g.system.jobs[p]? = some .poll ∧
      ∃ d, g.system.world.db.row r = some (.delivery d) := by
  obtain ⟨e', p, job, k, rfl, hpid, hproc, hcase⟩ := h.changes hmove hrow
  rcases hcase with ⟨rfl, hd⟩ | ⟨business, req, rfl, howns, -⟩
  · exact ⟨e', p, rfl, hpid, System.jobs_getElem?.mpr ⟨_, hproc, rfl⟩, hd⟩
  · -- the row would be one of another business, for the requests of this one have ended
    obtain ⟨x, hx⟩ := hquiet.ended p _ hproc business req rfl (hown _ howns) rfl
    cases hx

/-- **A business stays quiet**, and without a key. -/
theorem Quiet.reaches (hquiet : g.Quiet crypto b) (h : g.Sound crypto)
    (hnow : g.directory.Without b)
    (hrun : Reaches (step crypto) (Administered (Directory.Without b)) g g') :
    g'.Quiet crypto b ∧ g'.Sound crypto ∧ g'.directory.Without b := by
  refine hrun.invariant (I := fun u => u.Quiet crypto b ∧ u.Sound crypto ∧ u.directory.Without b)
    ⟨hquiet, h, hnow⟩ ?_
  rintro u e v ⟨hquiet, h, hnow⟩ hC hstep
  obtain ⟨hquiet', hnow'⟩ := hquiet.move h hnow (moves_of_step hstep) hC
  exact ⟨hquiet', h.step hstep, hnow'⟩

/-- **A business whose keys are revoked is left alone.** Once none of its keys is active and
nothing of it is under way, no row of the business is inserted any more, and none is changed but the
deliveries that were there by then, of which the worker keeps account. -/
theorem revoked_left_alone (hg : g.Reachable crypto) (hnow : g.directory.Without b)
    (hquiet : g.Quiet crypto b)
    (hrun : Reaches (step crypto) (Administered (Directory.Without b)) g g') :
    (∀ r, g'.system.world.db.Owns b r → g'.system.world.db.row r = g.system.world.db.row r ∨
      ∃ d, g.system.world.db.row r = some (.delivery d)) ∧
    ∀ e g'', g'.step crypto e = some g'' → ∀ r, g''.system.world.db.Owns b r →
      g''.system.world.db.row r ≠ g'.system.world.db.row r →
        ∃ (e' : Event) (p : Pid), e = .inner e' ∧ e'.pid? = some p ∧
          g'.system.jobs[p]? = some .poll ∧ ∃ d, g'.system.world.db.row r = some (.delivery d) := by
  have h := hg.sound
  clear hg
  constructor
  · intro r hown
    induction hrun using Relation.ReflTransGen.head_induction_on with
    | refl => exact Or.inl rfl
    | @head u v hstep hrest ih =>
      obtain ⟨e, hC, hstep⟩ := hstep
      have hmove := moves_of_step hstep
      obtain ⟨hquiet', hnow'⟩ := hquiet.move h hnow hmove hC
      have h' := h.step hstep
      by_cases hrow : v.system.world.db.row r = u.system.world.db.row r
      · rw [← hrow]
        exact ih hnow' hquiet' h'
      · obtain ⟨-, -, -, -, -, hd⟩ := hquiet.changes h hmove hrow fun b' hb' =>
          (hb'.grows (h'.grows hrest)).unique hown
        exact Or.inr hd
  · intro e g'' hstep r hown hrow
    obtain ⟨hquiet', h', -⟩ := hquiet.reaches h hnow hrun
    exact hquiet'.changes h' (moves_of_step hstep) hrow fun b' hb' => hb'.unique hown

end Gateway

/-- A request arrives with the key of the business and is served, by so many statements. -/
def serving (n : ℕ) (req : Request) (more : ℕ) : List GatewayEvent :=
  [.arrive (some ⟨"Bearer", "sk_live_Zm9v"⟩) req, .look n, .look n, .enter n] ++
    List.replicate more (.inner (.exec n {}))

/-- The business creates an invoice, of which its endpoint is to be told; then its key
is revoked. -/
def revoking : List GatewayEvent :=
  serving 0 (.createEndpoint "https://example.com/hook") 4 ++
    serving 1 (.createCustomer "Ada" "ada@example.com") 3 ++
    serving 2 (.createInvoice ⟨0, none, [⟨"audit", 1, 900, by decide, Int.one_pos,
      Int.natCast_nonneg 900⟩], List.cons_ne_nil _ _⟩) 9 ++
    [.administer (sampleDirectory false)]

/-- The key is tried again, and a poll posts the delivery and is about to commit. -/
def knocking : List GatewayEvent :=
  [.arrive (some ⟨"Bearer", "sk_live_Zm9v"⟩) (.createCustomer "Eve" "eve@example.com"), .look 3,
    .inner (.start .poll)] ++ List.replicate 7 (.inner (.exec 3 { http := .response 200 none }))

/-- No request is under way. -/
def Gateway.settled (g : Gateway) : Bool :=
  (g.arrivals.all fun a => a.session.isSome) && g.system.procs.all fun proc =>
    match proc.prog with
    | .ret _ => true
    | .op .. => false

theorem Gateway.quiet_of_settled {crypto : Crypto} {g : Gateway} {b : Uuid} (h : g.settled = true) :
    g.Quiet crypto b := by
  rw [settled, Bool.and_eq_true, List.all_eq_true, List.all_eq_true] at h
  refine ⟨fun n a ha hnew => ?_, fun p proc hproc business req _ _ _ => ?_⟩
  · have hsome := h.1 a (List.mem_of_getElem? ha)
    rw [hnew] at hsome
    cases hsome
  · have hret := h.2 proc (List.mem_of_getElem? hproc)
    cases hprog : proc.prog with
    | ret x => exact ⟨x, rfl⟩
    | op st k =>
      rw [hprog] at hret
      cases hret

/-- The delivery of a business, as one of its rows. -/
theorem Database.owns_delivery {db : Database} {b i : Uuid} {d : WebhookDelivery}
    {e : WebhookEndpoint}
    (hd : db.deliveries.find? i = some d) (he : db.endpoints.find? d.webhookEndpointId = some e)
    (hb : e.businessId = b) : db.Owns b ⟨.deliveries, i⟩ :=
  ⟨.delivery d, Option.map_eq_some_iff.mpr ⟨d, hd, rfl⟩, e, he, hb⟩

/-- The customer is as it was, and the delivery is changed by the poll. -/
theorem revoked_left_alone_knocking : ∃ g g' g'' : Gateway, g.Reachable sampleCrypto ∧
    Reaches (Gateway.step sampleCrypto) (Administered (Directory.Without 1)) g g' ∧
      g'.step sampleCrypto (.inner (.exec 3 {})) = some g'' ∧
        g'.system.world.db.Owns 1 ⟨.customers, 0⟩ ∧
          g'.system.world.db.row ⟨.customers, 0⟩ = g.system.world.db.row ⟨.customers, 0⟩ ∧
        g''.system.world.db.Owns 1 ⟨.deliveries, 0⟩ ∧
          g''.system.world.db.row ⟨.deliveries, 0⟩ ≠ g'.system.world.db.row ⟨.deliveries, 0⟩ ∧
            g'.system.jobs[3]? = some .poll := by
  obtain ⟨g, hrun, hg⟩ := (Option.any_eq_true _ _).mp (by decide +kernel :
    (run (Gateway.step sampleCrypto) (.init (sampleDirectory true)) revoking).any (fun g =>
      g.directory.Without 1 ∧ g.settled = true ∧
        (g.system.world.db.customers.find? 0).isSome ∧
        (runIf (Gateway.step sampleCrypto) (Administered (Directory.Without 1)) g
            knocking).any (fun g' =>
          (g'.system.world.db.customers.find? 0).any (fun c => c.businessId = 1) ∧
            (g'.step sampleCrypto (.inner (.exec 3 {}))).any (fun g'' =>
              (g''.system.world.db.deliveries.find? 0).any (fun d => d.status = .delivered ∧
                (g''.system.world.db.endpoints.find? d.webhookEndpointId).any (·.businessId = 1)) ∧
              (g'.system.world.db.deliveries.find? 0).any (fun d => d.status = .pending)) = true) =
          true) = true)
  obtain ⟨hwithout, hsettled, hthere, hknock⟩ := of_decide_eq_true hg
  obtain ⟨g', hrun', hg'⟩ := (Option.any_eq_true _ _).mp hknock
  obtain ⟨hcustomer, hpoll⟩ := of_decide_eq_true hg'
  obtain ⟨g'', hstep, hg''⟩ := (Option.any_eq_true _ _).mp hpoll
  obtain ⟨hdelivered, hpending⟩ := of_decide_eq_true hg''
  obtain ⟨c, hc, hb⟩ := (Option.any_eq_true _ _).mp hcustomer
  have hbusiness : c.businessId = 1 := of_decide_eq_true hb
  have hown : g'.system.world.db.Owns 1 ⟨.customers, 0⟩ :=
    ⟨.customer c, Option.map_eq_some_iff.mpr ⟨c, hc, rfl⟩, hbusiness⟩
  obtain ⟨d, hd, hd'⟩ := (Option.any_eq_true _ _).mp hdelivered
  obtain ⟨hstatus, hendpoint⟩ := of_decide_eq_true hd'
  obtain ⟨e, he, he'⟩ := (Option.any_eq_true _ _).mp hendpoint
  have hown' := Database.owns_delivery hd he (of_decide_eq_true he')
  obtain ⟨d₀, hd₀, hstatus₀⟩ := (Option.any_eq_true _ _).mp hpending
  have hstatus₀ : d₀.status = .pending := of_decide_eq_true hstatus₀
  have hrow : g''.system.world.db.row ⟨.deliveries, 0⟩ ≠ g'.system.world.db.row
    ⟨.deliveries, 0⟩ := by
    intro heq
    have heq' : g''.system.world.db.deliveries.find? 0 = g'.system.world.db.deliveries.find? 0 :=
      Option.map_injective (fun _ _ h => Row.delivery.inj h) heq
    rw [hd, hd₀] at heq'
    rw [Option.some.inj heq', hstatus₀] at hstatus
    cases hstatus
  have hreach := reaches_of_runIf hrun'
  obtain ⟨hrows, hsteps⟩ := Gateway.revoked_left_alone (reachable_of_run hrun) hwithout
    (Gateway.quiet_of_settled hsettled) hreach
  have hsame : g'.system.world.db.row ⟨.customers, 0⟩ = g.system.world.db.row ⟨.customers, 0⟩ := by
    refine (hrows _ hown).resolve_right ?_
    rintro ⟨d, hd⟩
    obtain ⟨c, -, hc⟩ := Option.map_eq_some_iff.mp hd
    cases hc
  obtain ⟨-, p, ⟨⟩, hpid, hjob, -⟩ := hsteps _ g'' hstep _ hown' hrow
  obtain rfl : 3 = p := Option.some.inj hpid
  exact ⟨g, g', g'', reachable_of_run hrun, hreach, hstep, hown, hsame, hown', hrow, hjob⟩

/-! ### From its making to its end -/

/-- A character of `secrets.token_urlsafe`. -/
def UrlSafe (c : Char) : Prop :=
  c ∈ "ABCDEFGHIJKLMNOPQRSTUVWXYZabcdefghijklmnopqrstuvwxyz0123456789-_".toList

instance : DecidablePred UrlSafe := fun _ => inferInstanceAs (Decidable (_ ∈ _))

theorem UrlSafe.not_space {c : Char} (h : UrlSafe c) : ¬isStripSpace c := by
  have hall : "ABCDEFGHIJKLMNOPQRSTUVWXYZabcdefghijklmnopqrstuvwxyz0123456789-_".toList.all
      (fun c => !isStripSpace c) = true := by decide +kernel
  simpa using List.all_eq_true.mp hall c h

/-- The credentials are the key, with white space around it. -/
def GeneratedApiKey.PresentedBy (k : GeneratedApiKey) (c : Credentials) : Prop :=
  c.Bearer ∧ ∃ before after : List Char, (∀ ch ∈ before, isStripSpace ch) ∧
    (∀ ch ∈ after, isStripSpace ch) ∧
      c.credentials = String.ofList (before ++ k.plaintext.toList ++ after)

theorem plaintext_generateApiKey (crypto : Crypto) (randomPart : String) :
    (generateApiKey crypto randomPart).plaintext = "sk_live_" ++ randomPart := rfl

/-- Nothing but the key is left of the credentials. -/
theorem GeneratedApiKey.PresentedBy.strip_eq {crypto : Crypto} {randomPart : String}
    {c : Credentials} (h : (generateApiKey crypto randomPart).PresentedBy c)
    (hsafe : ∀ ch ∈ randomPart.toList, UrlSafe ch) :
    strip c.credentials = (generateApiKey crypto randomPart).plaintext := by
  obtain ⟨-, before, after, hbefore, hafter, hc⟩ := h
  rw [hc]
  refine strip_around hbefore (fun ch hch => ?_) hafter
  rw [plaintext_generateApiKey, String.toList_append, List.mem_append] at hch
  rcases hch with hch | hch
  · have hall : "sk_live_".toList.all (fun ch => !isStripSpace ch) = true := by decide
    simpa using List.all_eq_true.mp hall ch hch
  · exact (hsafe ch hch).not_space

/-- No active key has the hash. -/
def Directory.Retired (keyHash : Varchar 64) (d : Directory) : Prop :=
  ∀ k ∈ d.apiKeys.rows, k.keyHash = keyHash → k.isActive = false

section Lifetime

variable {crypto : Crypto} {randomPart : String} {c : Credentials} {key : ApiKey} {d : Directory}
  {b b' id : Uuid} {now : Timestamp}

/-- A generated key has a row: its hash and its prefix can be stored. -/
theorem exists_generated_row (crypto : Crypto) (hsafe : ∀ ch ∈ randomPart.toList, UrlSafe ch)
    (b id : Uuid) (now : Timestamp) :
    ∃ key, (generateApiKey crypto randomPart).row b id now = .ok key := by
  have hlength : (generateApiKey crypto randomPart).keyPrefix.length ≤ 20 := by
    unfold generateApiKey
    rw [String.length_ofList, List.length_take]
    exact (Nat.min_le_left _ _).trans (by decide)
  have hnul : nul ∉ (generateApiKey crypto randomPart).keyPrefix.toList := by
    unfold generateApiKey
    rw [String.toList_ofList]
    intro h
    have h := List.mem_of_mem_take h
    rw [String.toList_append, List.mem_append] at h
    rcases h with h | h
    · exact absurd h (by decide)
    · exact absurd (hsafe nul h) (by decide)
  obtain ⟨keyPrefix, hstored, -⟩ := Varchar.exists_ofString? ⟨hlength, hnul⟩
  unfold GeneratedApiKey.row
  rw [hstored]
  exact ⟨_, rfl⟩

theorem GeneratedApiKey.row_fields {k : GeneratedApiKey} (h : k.row b id now = .ok key) :
    key.businessId = b ∧ key.isActive = true ∧ key.keyHash = k.keyHash.toVarchar := by
  unfold GeneratedApiKey.row at h
  split at h
  · rw [← Except.ok.inj h]
    exact ⟨rfl, rfl, rfl⟩
  · cases h

section Presented

variable (hsafe : ∀ ch ∈ randomPart.toList, UrlSafe ch)
  (hc : (generateApiKey crypto randomPart).PresentedBy c)
include hsafe hc

/-- Whom a directory admits with a generated key, by the row of its hash. -/
theorem admits_generated :
    d.Admits crypto (some c) b ↔ ∃ k ∈ d.apiKeys, k.isActive = true ∧ k.businessId = b ∧
      k.keyHash = (generateApiKey crypto randomPart).keyHash.toVarchar := by
  have hstrip := hc.strip_eq hsafe
  have hne : strip c.credentials ≠ "" := by
    rw [hstrip, plaintext_generateApiKey]
    intro heq
    have hlength := congrArg String.length heq
    rw [String.length_append, show "sk_live_".length = 8 by decide] at hlength
    exact absurd hlength (by rw [String.length_empty]; omega)
  rw [Directory.admits_some hc.1 hne, hstrip]
  constructor
  · rintro ⟨k, heval, hb⟩
    obtain ⟨hk, hactive, hhash⟩ := Directory.eval_activeKey.mp heval
    exact ⟨k, hk, hactive, hb, Varchar.ext hhash⟩
  · rintro ⟨k, hk, hactive, hb, hhash⟩
    exact ⟨k, Directory.eval_activeKey.mpr ⟨hk, hactive, congrArg Varchar.text hhash⟩, hb⟩

end Presented

namespace Gateway

variable {g g' : Gateway} {P : Directory → Prop}

/-- While the directories have a property, they are all that is in effect for those who arrive. -/
theorem Sound.since (h : g.Sound crypto) (hnow : P g.directory)
    (hrun : Reaches (Gateway.step crypto) (Administered P) g g') :
    g'.Sound crypto ∧ ∀ (n : ℕ) (a : Arrival), g'.arrivals[n]? = some a → g.arrivals.length ≤ n →
      ∀ d ∈ g'.since a, P d := by
  let I (u : Gateway) : Prop :=
    u.Sound crypto ∧ P u.directory ∧ ∀ (n : ℕ) (a : Arrival), u.arrivals[n]? = some a →
      g.arrivals.length ≤ n → ∀ d ∈ u.since a, P d
  have hI : I g' := by
    refine hrun.invariant ⟨h, hnow, fun n a ha hn => ?_⟩ ?_
    · exact absurd (List.getElem?_eq_some_iff.mp ha).1 (Nat.not_lt.mpr hn)
    · rintro u e v ⟨hu, hP, hall⟩ hC hstep
      have hmove := moves_of_step hstep
      refine ⟨hu.step hstep, hmove.directory hP hC, fun n a ha hn d hd => ?_⟩
      rcases hmove.arrival hu ha with ⟨-, hsince⟩ | ⟨a₀, ha₀, -, hsince⟩
      · rw [hsince, List.mem_singleton] at hd
        exact hd ▸ hP
      · rcases hsince d hd with hd | rfl
        · exact hall n a₀ ha₀ hn d hd
        · exact hC
  exact ⟨hI.1, hI.2.2⟩

/-- **The life of a generated key.** A key can be put to use as it is made. While its row is in
place, whoever arrives with it, in any casing of the scheme and with any white space around it, is
let in as its business; and once no active key has its hash, nobody who arrives with it is let in
any more. -/
theorem key_lifetime (hg : g.Reachable crypto) (hsafe : ∀ ch ∈ randomPart.toList, UrlSafe ch)
    (hc : (generateApiKey crypto randomPart).PresentedBy c) (b id : Uuid) (now : Timestamp) :
    ∃ key, (generateApiKey crypto randomPart).row b id now = .ok key ∧
      ∀ g' (n : ℕ) (a : Arrival) (x : Except HttpException Business), g'.arrivals[n]? = some a →
        g.arrivals.length ≤ n → a.credentials = some c → a.prog = .ret x →
          (key ∈ g.directory.apiKeys →
            Reaches (step crypto) (Administered (key ∈ ·.apiKeys)) g g' → x = .ok ⟨b⟩) ∧
          (g.directory.Retired key.keyHash →
            Reaches (step crypto) (Administered (Directory.Retired key.keyHash)) g g' →
              x = .error unauthorized ∧ a.session = none) := by
  obtain ⟨key, hrow⟩ := exists_generated_row crypto hsafe b id now
  obtain ⟨hb, hactive, hhash⟩ := GeneratedApiKey.row_fields hrow
  refine ⟨key, hrow, fun g' n a x ha hn hcred hx => ⟨fun hnow hrun => ?_, fun hnow hrun => ?_⟩⟩
  · obtain ⟨h', hall⟩ := hg.sound.since hnow hrun
    have hadmits : ∀ d ∈ g'.since a, d.Admits crypto (some c) b := fun d hd =>
      (admits_generated hsafe hc).mpr ⟨key, hall n a ha hn d hd, hactive, hb, hhash⟩
    have hens := (h'.holds n a ha).ensures
    rw [hx, hcred] at hens
    cases x with
    | ok business =>
      obtain ⟨d, hd, hbusiness⟩ := hens.returned
      exact congrArg Except.ok (congrArg Business.mk (hbusiness.unique (hadmits d hd)))
    | error e =>
      obtain ⟨-, d, hd, hnone⟩ := hens.returned
      exact absurd (hadmits d hd) (hnone b)
  · obtain ⟨h', hall⟩ := hg.sound.since hnow hrun
    have hnone : ∀ d ∈ g'.since a, ∀ b', ¬d.Admits crypto (some c) b' := by
      intro d hd b' hadmits
      obtain ⟨k, hk, hactive', -, hhash'⟩ := (admits_generated hsafe hc).mp hadmits
      cases (hall n a ha hn d hd k hk (hhash'.trans hhash.symm)).symm.trans hactive'
    have hens := (h'.holds n a ha).ensures
    rw [hx, hcred] at hens
    cases x with
    | ok business =>
      obtain ⟨d, hd, hadmits⟩ := hens.returned
      exact absurd hadmits (hnone d hd business.id)
    | error e =>
      obtain ⟨rfl, -⟩ := hens.returned
      refine ⟨rfl, Option.eq_none_iff_forall_ne_some.mpr fun p hp => ?_⟩
      obtain ⟨business, hprog, -⟩ := (h'.holds n a ha).session p hp
      cases hx.symm.trans hprog

end Gateway

end Lifetime

instance (keyHash : Varchar 64) : DecidablePred (Directory.Retired keyHash) := fun d =>
  List.decidableBAll (fun k : ApiKey => k.keyHash = keyHash → k.isActive = false) d.apiKeys.rows

instance (key : ApiKey) : DecidablePred fun d : Directory => key ∈ d.apiKeys := fun d =>
  inferInstanceAs (Decidable (key ∈ d.apiKeys.rows))

theorem generated_sampleKey : (generateApiKey sampleCrypto "Zm9v").row 1 0 0 = .ok
    (sampleKey true) :=
  rfl

theorem presented_sampleKey :
    (generateApiKey sampleCrypto "Zm9v").PresentedBy ⟨"BEARER", " sk_live_Zm9v"⟩ :=
  ⟨by decide +kernel, [' '], [], List.forall_mem_singleton.mpr (by decide), List.forall_mem_nil _,
    by decide +kernel⟩

/-- A client arrives with the key, while the operator puts a directory in place that is the same. -/
def admitted : List GatewayEvent :=
  [.arrive (some ⟨"BEARER", " sk_live_Zm9v"⟩) .listEndpoints, .look 0,
    .administer (sampleDirectory true), .look 0]

/-- A client arrives with the key when it has been revoked. -/
def refused : List GatewayEvent :=
  [.arrive (some ⟨"BEARER", " sk_live_Zm9v"⟩) .listEndpoints, .look 0]

/-- What the dependency has returned. -/
def Arrival.outcome? (a : Arrival) : Option (Except HttpException Business) :=
  match a.prog with
  | .ret x => some x
  | .op .. => none

theorem Arrival.outcome?_eq_some {a : Arrival} {x : Except HttpException Business} :
    a.outcome? = some x ↔ a.prog = .ret x := by
  unfold outcome?
  split
  case h_1 y h => simp [h]
  case h_2 q k h => simp [h]

/-- The key lets a client in while its row is in place, and no more when it has been revoked. -/
theorem key_lifetime_sample :
    (∃ (g : Gateway) (a : Arrival),
      Reaches (Gateway.step sampleCrypto) (Administered (sampleKey true ∈ ·.apiKeys))
        (.init (sampleDirectory true)) g ∧ g.arrivals[0]? = some a ∧ a.prog = .ret (.ok ⟨1⟩)) ∧
    ∃ (g g' : Gateway) (a : Arrival), g.Reachable sampleCrypto ∧ g.past = [sampleDirectory true] ∧
      Reaches (Gateway.step sampleCrypto)
        (Administered (Directory.Retired (sampleKey true).keyHash)) g g' ∧
        g'.arrivals[0]? = some a ∧ a.prog = .ret (.error unauthorized) ∧ a.session = none := by
  have hsafe : ∀ ch ∈ "Zm9v".toList, UrlSafe ch :=
    fun ch hch => of_decide_eq_true (List.all_eq_true.mp
    (show "Zm9v".toList.all (fun ch => UrlSafe ch) = true by decide) ch hch)
  constructor
  · obtain ⟨g, hrun, hg⟩ := (Option.any_eq_true _ _).mp (by decide +kernel :
      (runIf (Gateway.step sampleCrypto) (Administered (sampleKey true ∈ ·.apiKeys))
        (.init (sampleDirectory true)) admitted).any (fun g => g.arrivals[0]?.any (fun a =>
          a.credentials = some ⟨"BEARER", " sk_live_Zm9v"⟩ ∧ a.outcome?.isSome) = true) = true)
    obtain ⟨a, ha, hcase⟩ := (Option.any_eq_true _ _).mp (of_decide_eq_true hg)
    obtain ⟨hcred, houtcome⟩ := of_decide_eq_true hcase
    obtain ⟨x, hx⟩ := Option.isSome_iff_exists.mp houtcome
    have hret := Arrival.outcome?_eq_some.mp hx
    have hreach := reaches_of_runIf hrun
    obtain ⟨key, hkey, hlife⟩ := Gateway.key_lifetime (g := .init (sampleDirectory true))
      ⟨_, Relation.ReflTransGen.refl⟩ hsafe presented_sampleKey 1 0 0
    obtain rfl := Except.ok.inj (hkey.symm.trans generated_sampleKey)
    obtain rfl := (hlife g 0 a x ha le_rfl hcred hret).1 (List.mem_singleton_self _) hreach
    exact ⟨g, a, hreach, ha, hret⟩
  · obtain ⟨g, hrun, hg⟩ := (Option.any_eq_true _ _).mp (by decide +kernel :
      (run (Gateway.step sampleCrypto) (.init (sampleDirectory true))
        [.administer (sampleDirectory false)]).any (fun g => g.arrivals.length = 0 ∧
          Directory.Retired (sampleKey true).keyHash g.directory ∧
          (runIf (Gateway.step sampleCrypto)
            (Administered (Directory.Retired (sampleKey true).keyHash)) g refused).any (fun g' =>
              g'.arrivals[0]?.any (fun a => a.credentials = some ⟨"BEARER", " sk_live_Zm9v"⟩ ∧
                a.outcome?.isSome) = true) = true) = true)
    obtain ⟨hlength, hretired, hg'⟩ := of_decide_eq_true hg
    obtain ⟨g', hrun', hg'⟩ := (Option.any_eq_true _ _).mp hg'
    obtain ⟨a, ha, hcase⟩ := (Option.any_eq_true _ _).mp (of_decide_eq_true hg')
    obtain ⟨hcred, houtcome⟩ := of_decide_eq_true hcase
    obtain ⟨x, hx⟩ := Option.isSome_iff_exists.mp houtcome
    have hret := Arrival.outcome?_eq_some.mp hx
    have hreach := reaches_of_runIf hrun'
    obtain ⟨key, hkey, hlife⟩ := Gateway.key_lifetime
      (reachable_of_run hrun) hsafe presented_sampleKey 1 0 0
    obtain rfl := Except.ok.inj (hkey.symm.trans generated_sampleKey)
    obtain ⟨rfl, hnone⟩ := (hlife g' 0 a x ha hlength.le hcred hret).2 hretired hreach
    have hpast : g.past = [sampleDirectory true] := by
      simp only [run, Gateway.step] at hrun
      split at hrun
      · obtain rfl := Option.some.inj hrun
        rfl
      · cases hrun
    exact ⟨g, g', a, reachable_of_run hrun, hpast, hreach, ha, hret, hnone⟩

end TenantBilling
