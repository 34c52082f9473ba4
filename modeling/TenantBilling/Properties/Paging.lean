import TenantBilling.Base.Paging
import TenantBilling.Invariant.Polling
import TenantBilling.Properties.Ranges

/-!
# Paging through a listing

Each page of a listing is a query of its own, and the order it asks for does not decide between
rows of one time: the server may return these in another order for every page. So a client that
goes through the pages is shown everything exactly once if no page boundary splits the rows of one
time, and can be shown a row twice, and miss another, if one does
(`TenantBilling.lists_once_iff`).

The answers come from a run of the system that leaves the committed database as it is; the requests
for the pages may be interleaved with each other and with anything else.
-/

namespace TenantBilling

open Base World

/-! ### `ORDER BY created_at DESC` -/

section Order

variable {ρ : Type} {id : ρ → Uuid} {createdAt : ρ → Timestamp} {rows l : List ρ}

/-- The order in which a query returns the rows. -/
def Precedes (rank : Uuid → ℕ) (id : ρ → Uuid) (createdAt : ρ → Timestamp) (a b : ρ) : Prop :=
  createdAt b < createdAt a ∨ createdAt a = createdAt b ∧ rank (id a) ≤ rank (id b)

instance (rank : Uuid → ℕ) : DecidableRel (Precedes rank id createdAt) := fun a b =>
  inferInstanceAs (Decidable (createdAt b < createdAt a ∨ _ ∧ _))

theorem precedes_total (rank : Uuid → ℕ) (a b : ρ) :
    Precedes rank id createdAt a b ∨ Precedes rank id createdAt b a := by
  rcases lt_trichotomy (createdAt a) (createdAt b) with hlt | heq | hgt
  · exact Or.inr (Or.inl hlt)
  · rcases le_total (rank (id a)) (rank (id b)) with hle | hle
    · exact Or.inl (Or.inr ⟨heq, hle⟩)
    · exact Or.inr (Or.inr ⟨heq.symm, hle⟩)
  · exact Or.inl (Or.inl hgt)

theorem precedes_trans (rank : Uuid → ℕ) {a b c : ρ} (hab : Precedes rank id createdAt a b)
    (hbc : Precedes rank id createdAt b c) : Precedes rank id createdAt a c := by
  rcases hab with hab | ⟨hab, hle⟩
  · rcases hbc with hbc | ⟨hbc, -⟩
    · exact Or.inl (hbc.trans hab)
    · exact Or.inl (hbc ▸ hab)
  · rcases hbc with hbc | ⟨hbc, hle'⟩
    · exact Or.inl (hab ▸ hbc)
    · exact Or.inr ⟨hab.trans hbc, hle.trans hle'⟩

/-- Two rows that precede each other have one place. -/
theorem rank_eq_of_precedes {rank : Uuid → ℕ} {a b : ρ} (hab : Precedes rank id createdAt a b)
    (hba : Precedes rank id createdAt b a) : rank (id a) = rank (id b) := by
  rcases hab with hab | ⟨hab, hle⟩
  · rcases hba with hba | ⟨hba, -⟩
    · exact absurd hab hba.asymm
    · exact absurd hab hba.not_lt
  · rcases hba with hba | ⟨-, hle'⟩
    · exact absurd hba hab.not_lt
    · exact le_antisymm hle hle'

theorem pairwise_newestFirst (rank : Uuid → ℕ) (rows : List ρ) :
    (newestFirst rank id createdAt rows).Pairwise (Precedes rank id createdAt) := by
  have : Std.Total (Precedes rank id createdAt) := ⟨precedes_total rank⟩
  have : IsTrans ρ (Precedes rank id createdAt) := ⟨fun _ _ _ => precedes_trans rank⟩
  exact List.pairwise_insertionSort _ rows

/-- Whatever the server does with rows of one time, the newest come first. -/
theorem arranged_newestFirst (rank : Uuid → ℕ) (rows : List ρ) :
    Arranged createdAt rows (newestFirst rank id createdAt rows) where
  perm := List.perm_insertionSort _ rows
  sorted := (pairwise_newestFirst rank rows).imp fun hab => by
    rcases hab with hlt | ⟨heq, -⟩
    · exact hlt.le
    · exact heq.ge

/-- The place of an id in a list; the ids that are not in it come after. -/
def placeIn (ids : List Uuid) : Uuid ↪ ℕ where
  toFun i := if i ∈ ids then ids.idxOf i else ids.length + i
  inj' i j hij := by
    dsimp only at hij
    have hlt : ∀ k ∈ ids, ids.idxOf k < ids.length := fun k hk => List.idxOf_lt_length_of_mem hk
    split at hij <;> split at hij
    case isTrue.isTrue hi hj => exact (List.idxOf_inj hi).mp hij
    case isTrue.isFalse hi hj =>
      have hi := hlt i hi
      rw [hij] at hi
      exact absurd hi (Nat.not_lt.mpr (Nat.le_add_right _ _))
    case isFalse.isTrue hi hj =>
      have hj := hlt j hj
      rw [← hij] at hj
      exact absurd hj (Nat.not_lt.mpr (Nat.le_add_right _ _))
    case isFalse.isFalse => exact Nat.add_left_cancel hij

/-- **Every arrangement of the rows that has the newest first can be returned.** -/
theorem exists_newestFirst_eq (hids : (rows.map id).Nodup) (h : Arranged createdAt rows l) :
    ∃ rank : Uuid ↪ ℕ, newestFirst rank id createdAt rows = l := by
  have hl : (l.map id).Nodup := (h.perm.map id).nodup_iff.mpr hids
  refine ⟨placeIn (l.map id), ?_⟩
  have hplace : ∀ i (hi : i < l.length), placeIn (l.map id) (id l[i]) = i := by
    intro i hi
    have hmem : id l[i] ∈ l.map id := List.mem_map_of_mem (List.getElem_mem hi)
    change (if id l[i] ∈ l.map id then (l.map id).idxOf (id l[i]) else _) = i
    rw [if_pos hmem]
    have hlen : i < (l.map id).length := by rwa [List.length_map]
    have hget : (l.map id)[i] = id l[i] := List.getElem_map id
    rw [← hget]
    exact hl.idxOf_getElem i hlen
  have hsorted : l.Pairwise (Precedes (placeIn (l.map id)) id createdAt) := by
    refine List.pairwise_iff_getElem.mpr fun i j hi hj hij => ?_
    rcases (List.pairwise_iff_getElem.mp h.sorted i j hi hj hij).lt_or_eq with hlt | heq
    · exact Or.inl hlt
    · refine Or.inr ⟨heq.symm, ?_⟩
      rw [hplace i hi, hplace j hj]
      exact hij.le
  have hperm : (newestFirst (placeIn (l.map id)) id createdAt rows).Perm l :=
    (arranged_newestFirst _ rows).perm.trans h.perm.symm
  refine hperm.eq_of_pairwise (fun a b ha hb hab hba => ?_) (pairwise_newestFirst _ rows) hsorted
  refine List.inj_on_of_nodup_map hl (hperm.subset ha) hb ?_
  exact (placeIn (l.map id)).injective (rank_eq_of_precedes hab hba)

end Order

/-! ### The session of a listing -/

/-- What a route does that lists: it counts, selects a page, and hands both back. -/
structure Listing where
  count : Query
  page : Query
  result : count.Result → page.Result → Result

namespace Listing

variable (l : Listing)

/-- The session is closed and the page is handed back. -/
def close (total : l.count.Result) (rows : l.page.Result) : ServerProg (Except Exc Result) :=
  .op .rollback fun _ => .ret (.ok (l.result total rows))

def program : ServerProg (Except Exc Result) :=
  .op (.select l.count) fun total => .op (.select l.page) fun rows => l.close total rows

/-- What both queries find in the database. -/
def resultOn (db : Database) (rank rank' : Uuid → ℕ) : Result :=
  l.result (db.eval rank l.count) (db.eval rank' l.page)

/-- What is left of the program while the committed database is this one. -/
inductive Left (db : Database) : ServerProg (Except Exc Result) → Prop where
  | counting : Left db (.op (.select l.count) fun total => .op (.select l.page) (l.close total))
  | reading (rank : Uuid ↪ ℕ) : Left db (.op (.select l.page) (l.close (db.eval rank l.count)))
  | closing (rank rank' : Uuid ↪ ℕ) :
    Left db (.op .rollback fun _ => .ret (.ok (l.resultOn db rank rank')))
  | done (rank rank' : Uuid ↪ ℕ) : Left db (.ret (.ok (l.resultOn db rank rank')))

variable {l} {db : Database} {w w' : World} {p : Pid} {st : Stmt} {r : st.Resp}
  {k : st.Resp → ServerProg (Except Exc Result)}

/-- An answer leaves of the program what it may, and the session still has written nothing. -/
theorem Left.answer (h : l.Left db (.op st k)) (hwrites : w.writesOf p = []) (hdb : w.db = db)
    (hans : w.Answers p st r w') : l.Left db (k r) ∧ w'.writesOf p = [] := by
  have hview : w.view p = db := by rw [World.view, hwrites, ← hdb]; rfl
  cases h with
  | counting =>
    obtain ⟨⟨env, rfl⟩, rfl⟩ := answers_select hans
    rw [hview]
    exact ⟨.reading env.rank, hwrites⟩
  | reading rank =>
    obtain ⟨⟨env, rfl⟩, rfl⟩ := answers_select hans
    rw [hview]
    exact ⟨.closing rank env.rank, hwrites⟩
  | closing rank rank' =>
    obtain rfl := answers_rollback hans
    exact ⟨.done rank rank', by rw [writesOf_release, if_pos rfl]⟩

end Listing

section Runs

variable {crypto : Crypto} {s t u : System} {φ φ' : Pid → Phase} {e : Event} {p : Pid}

/-- The event leaves the committed database as it is. -/
def System.Steady (crypto : Crypto) (s : System) (e : Event) : Prop :=
  ∀ t, s.step crypto e = some t → t.world.db = s.world.db

/-- The listings that have arrived since, on a database that has stayed what it is. -/
def Listing.Since (crypto : Crypto) (n : ℕ) (db : Database) (s : System) : Prop :=
  s.world.db = db ∧ ∀ (l : Listing) p proc, n ≤ p → s.procs[p]? = some proc →
    proc.job.program crypto = l.program →
      l.Left db proc.prog ∧ (proc.alive = true → s.world.writesOf p = [])

theorem Listing.Since.move {n : ℕ} {db : Database} (hI : Listing.Since crypto n db s)
    (h : s.Sound crypto φ) (hmove : s.Moves crypto φ e t φ') (hdb : t.world.db = s.world.db) :
    Listing.Since crypto n db t := by
  refine ⟨hdb.trans hI.1, fun l p proc hp hproc hl => ?_⟩
  cases hmove with
  | start job =>
    rcases System.getElem?_start hproc with ⟨-, hproc⟩ | ⟨rfl, rfl⟩
    · exact hI.2 l p proc hp hproc hl
    · exact ⟨hl ▸ .counting, fun _ => h.idle_new.writes⟩
  | @kill q job prog hq =>
    rcases System.getElem?_replace hq hproc with ⟨hne, hproc⟩ | ⟨rfl, rfl⟩
    · obtain ⟨hleft, hwrites⟩ := hI.2 l p proc hp hproc hl
      have hacts : Acts q .rollback s.world (s.world.release q) := .single .release
      exact ⟨hleft, fun halive => (hacts.frame hne).writes.trans (hwrites halive)⟩
    · exact ⟨(hI.2 l q _ hp hq hl).1, by rintro ⟨⟩⟩
  | @answer _ q job st r w' k ph hq hans hnext =>
    rcases System.getElem?_replace hq hproc with ⟨hne, hproc⟩ | ⟨rfl, rfl⟩
    · obtain ⟨hleft, hwrites⟩ := hI.2 l p proc hp hproc hl
      exact ⟨hleft, fun halive => (hans.answers.acts.frame hne).writes.trans (hwrites halive)⟩
    · obtain ⟨hleft, hwrites⟩ := hI.2 l q _ hp hq hl
      obtain ⟨hleft, hwrites⟩ := hleft.answer (hwrites rfl) hI.1 hans.answers
      exact ⟨hleft, fun _ => hwrites⟩

/-- The request has arrived since the state and has been answered. -/
def System.AnsweredSince (s t : System) (business : Business) (req : Request) (x : Result) : Prop :=
  ∃ p alive, s.procs.length ≤ p ∧ t.procs[p]? = some ⟨.request business req, .ret (.ok x), alive⟩

/-- **What a listing answers is what its queries find in the database.** -/
theorem Listing.eq_of_answered (hs : s.Reachable crypto)
    (ht : Reaches (System.step crypto) (System.Steady crypto) s t) {business : Business}
    {req : Request} {x : Result} (hx : s.AnsweredSince t business req x) {l : Listing}
    (hl : Job.program crypto (.request business req) = l.program) :
    ∃ rank rank' : Uuid ↪ ℕ, x = l.resultOn s.world.db rank rank' := by
  obtain ⟨φ, h⟩ := hs.sound
  have hnone : Listing.Since crypto s.procs.length s.world.db s :=
    ⟨rfl, fun l p proc hp hproc =>
    absurd (List.getElem?_eq_some_iff.mp hproc).1 (Nat.not_lt.mpr hp)⟩
  obtain ⟨φ', -, -, hsince⟩ := System.Sound.reaches (I := fun u _ =>
    Listing.Since crypto s.procs.length s.world.db u) ht h hnone
      fun u ψ e v ψ' hu hI hsteady hstep hmove _ => hI.move hu hmove (hsteady v hstep)
  obtain ⟨p, alive, hp, hproc⟩ := hx
  obtain ⟨hleft, -⟩ := hsince l p _ hp hproc hl
  cases hleft with
  | done rank rank' => exact ⟨rank, rank', rfl⟩

/-- A step that has been made keeps the committed database. -/
theorem System.steady_of_step (hstep : s.step crypto e = some t) (hdb : t.world.db = s.world.db) :
    StepIf (System.step crypto) (System.Steady crypto) s t :=
  ⟨e, fun _ hu => Option.some.inj (hstep.symm.trans hu) ▸ hdb, hstep⟩

/-- **A listing can be run alone**, and answers what its queries find, rows of one time in any
order. -/
theorem Listing.exists_run (hs : s.Reachable crypto) (business : Business) (req : Request)
    {l : Listing} (hl : Job.program crypto (.request business req) = l.program) (rank : Uuid ↪ ℕ) :
    ∃ w, w.db = s.world.db ∧ Reaches (System.step crypto) (System.Steady crypto) s
      ⟨w, s.procs ++
        [⟨.request business req, .ret (.ok (l.resultOn s.world.db rank rank)), true⟩]⟩ := by
  obtain ⟨φ, h⟩ := hs.sound
  let p := s.procs.length
  let arrived (w : World) (prog : ServerProg (Except Exc Result)) : System :=
    ⟨w, s.procs ++ [⟨.request business req, prog, true⟩]⟩
  have hview : s.world.view p = s.world.db := by rw [World.view, h.idle_new.writes]; rfl
  have hexec : ∀ {st : Stmt} {k : st.Resp → ServerProg (Except Exc Result)} {r : st.Resp}
    {w w' : World}, w.exec p { rank } st = some (r, w') → w'.db = w.db →
        StepIf (System.step crypto) (System.Steady crypto) (arrived w (.op st k))
          (arrived w' (k r)) := by
    intro st k r w w' hr hdb
    refine System.steady_of_step (e := .exec p { rank }) ?_ hdb
    simp only [System.step, arrived, p, List.getElem?_concat_length, hr, Option.map_some]
    simp
  have hselect : ∀ q : Query, s.world.exec p { rank } (.select q) =
      some (s.world.db.eval rank q, s.world) := by
    intro q
    rw [← hview]
    exact if_pos rfl
  have hstart : StepIf (System.step crypto) (System.Steady crypto) s
    (arrived s.world l.program) := by
    rw [← hl]
    exact System.steady_of_step (e := .start (.request business req)) rfl rfl
  refine ⟨s.world.release p, rfl, ?_⟩
  exact (((Relation.ReflTransGen.single hstart).tail (hexec (hselect l.count) rfl)).tail
    (hexec (hselect l.page) rfl)).tail (hexec rfl rfl)

/-- Listings can be run one after the other, each with its own order of rows of one time. -/
theorem Listing.exists_runs (hs : s.Reachable crypto) (business : Business) (req : ℕ → Request)
    {l : ℕ → Listing} (hl : ∀ k, Job.program crypto (.request business (req k)) = (l k).program)
    (rank : ℕ → Uuid ↪ ℕ) (m : ℕ) :
    ∃ t, Reaches (System.step crypto) (System.Steady crypto) s t ∧ t.world.db = s.world.db ∧
      s.procs.length ≤ t.procs.length ∧ ∀ k < m, s.AnsweredSince t business (req k)
        ((l k).resultOn s.world.db (rank k) (rank k)) := by
  induction m with
  | zero =>
    exact ⟨s, Relation.ReflTransGen.refl, rfl, le_rfl, fun k hk => absurd hk (Nat.not_lt_zero k)⟩
  | succ m ih =>
    obtain ⟨t, hst, hdb, hlen, hx⟩ := ih
    obtain ⟨w, hw, htu⟩ := Listing.exists_run (hs.trans hst.always) business (req m) (hl m) (rank m)
    refine ⟨_, hst.trans htu, hw.trans hdb, by simpa using Nat.le_succ_of_le hlen, fun k hk => ?_⟩
    rcases (Nat.lt_succ_iff_lt_or_eq).mp hk with hk | rfl
    · obtain ⟨p, alive, hp, hproc⟩ := hx k hk
      refine ⟨p, alive, hp, ?_⟩
      rwa [List.getElem?_append_left (List.getElem?_eq_some_iff.mp hproc).1]
    · refine ⟨t.procs.length, true, hlen, ?_⟩
      rw [← hdb]
      exact List.getElem?_concat_length

end Runs

/-! ### Going through the pages -/

section Pages

variable {ρ τ : Type}

/-- **Every row once and no other**, the newest first. -/
structure ListedOnce (createdAt : ρ → Timestamp) (rows listed : List ρ) : Prop where
  once : listed.Nodup
  mem_iff : ∀ a, a ∈ listed ↔ a ∈ rows
  newest : listed.Pairwise fun a b => createdAt b ≤ createdAt a

/-- **The pages list every row once**: whatever a client is answered that asks for the pages from
the first one up to the total, while the committed database stays what it is, the answers put
together have every row once, and each has their number. -/
def System.ListsOnce (crypto : Crypto) (s : System) (business : Business) (limit : ℕ)
    (request : ℕ → Request) (answer : ℕ → List τ → ℕ → Result) (row : τ → ρ)
    (createdAt : ρ → Timestamp) (rows : List ρ) : Prop :=
  ∀ (t : System) (items : ℕ → List τ) (total : ℕ → ℕ),
    Reaches (System.step crypto) (System.Steady crypto) s t →
    (∀ k, k * limit ≤ total 0 → s.AnsweredSince t business (request (k * limit))
      (answer (k * limit) (items k) (total k))) →
    ListedOnce createdAt rows (((List.range (total 0 / limit + 1)).flatMap items).map row) ∧
      ∀ k, k * limit ≤ total 0 → total k = rows.length

variable {crypto : Crypto} {s : System} {business : Business} {limit : ℕ} {request : ℕ → Request}
  {answer : ℕ → List τ → ℕ → Result} {row : τ → ρ} {id : ρ → Uuid} {createdAt : ρ → Timestamp}
  {rows : List ρ} {f : (Uuid → ℕ) → ρ → τ} {l : ℕ → Listing}

/-- The client has been shown pages of arrangements of the rows. -/
theorem map_flatMap_pages (hrow : ∀ rank a, row (f rank a) = a) {m : ℕ} {items : ℕ → List τ}
    {rank : ℕ → Uuid ↪ ℕ} (hitems : ∀ k < m, items k =
      (block limit k (newestFirst (rank k) id createdAt rows)).map (f (rank k))) :
    ((List.range m).flatMap items).map row =
      pages limit m fun k => newestFirst (rank k) id createdAt rows := by
  rw [List.map_flatMap, pages]
  refine List.flatMap_congr fun k hk => ?_
  rw [hitems k (List.mem_range.mp hk), List.map_map]
  exact (List.map_congr_left fun a _ => hrow (rank k) a).trans (List.map_id _)

variable (hs : s.Reachable crypto) (hlimit : 0 < limit)
  (hl : ∀ skip, Job.program crypto (.request business (request skip)) = (l skip).program)
  (hresult : ∀ skip rank rank', (l skip).resultOn s.world.db rank rank' =
    answer skip ((page skip limit (newestFirst rank' id createdAt rows)).map (f rank')) rows.length)
  (hanswer : ∀ {skip items items' total total'},
    answer skip items total = answer skip items' total' →
    items = items' ∧ total = total')
  (hrow : ∀ rank a, row (f rank a) = a) (hids : (rows.map id).Nodup)

include hs hlimit hl hresult hanswer hrow hids in
/-- **The pages list every row once exactly if no page boundary splits the rows of one time.** -/
theorem listsOnce_iff :
    s.ListsOnce crypto business limit request answer row createdAt rows ↔
      Unsplit createdAt limit rows := by
  constructor
  · intro hlists
    by_contra hsplit
    -- two orders of the rows show one of them on both sides of a boundary
    have harranged : Arranged createdAt rows
        (newestFirst (Function.Embedding.refl ℕ) id createdAt rows) := arranged_newestFirst _ rows
    obtain ⟨a, l', k, hl', hk, hmem, hmem'⟩ := exists_shown_twice hlimit hsplit harranged
    obtain ⟨rank', rfl⟩ := exists_newestFirst_eq hids hl'
    let rank : ℕ → Uuid ↪ ℕ := fun j => if j = k + 1 then rank' else .refl ℕ
    obtain ⟨t, hst, -, -, hx⟩ := Listing.exists_runs hs business (fun j => request (j * limit))
      (fun j => hl (j * limit)) rank (rows.length + 1)
    let items : ℕ → List τ := fun j =>
      (block limit j (newestFirst (rank j) id createdAt rows)).map (f (rank j))
    obtain ⟨hlisted, -⟩ := hlists t items (fun _ => rows.length) hst fun j hj => by
      have hlt : j < rows.length + 1 :=
        Nat.lt_succ_of_le ((Nat.le_mul_of_pos_right j hlimit).trans hj)
      have hxj := hx j hlt
      rw [hresult] at hxj
      exact hxj
    have honce := hlisted.once
    rw [map_flatMap_pages hrow fun _ _ => rfl, pages, List.nodup_flatMap] at honce
    have hlt : k + 1 < rows.length / limit + 1 :=
      Nat.lt_succ_of_le ((Nat.le_div_iff_mul_le hlimit).mpr hk.le)
    have hdisjoint := List.pairwise_iff_getElem.mp honce.2 k (k + 1) (by simpa using by omega)
      (by simpa using hlt) (Nat.lt_succ_self k)
    simp only [Function.onFun, List.getElem_range] at hdisjoint
    refine hdisjoint (a := a) ?_ ?_
    · simpa [rank] using hmem
    · simpa [rank] using hmem'
  · intro hunsplit t items total hst hx
    have hpage : ∀ k, k * limit ≤ total 0 → ∃ rank : Uuid ↪ ℕ, items k =
        (block limit k (newestFirst rank id createdAt rows)).map (f rank) ∧
          total k = rows.length := by
      intro k hk
      obtain ⟨rank, rank', heq⟩ := Listing.eq_of_answered hs hst (hx k hk) (hl (k * limit))
      rw [hresult] at heq
      obtain ⟨hitems, htotal⟩ := hanswer heq
      exact ⟨rank', hitems, htotal⟩
    have htotal : total 0 = rows.length := by
      obtain ⟨-, -, htotal⟩ := hpage 0 (by rw [Nat.zero_mul]; exact Nat.zero_le _)
      exact htotal
    refine ⟨?_, fun k hk => ?_⟩
    · have : Nonempty (Uuid ↪ ℕ) := ⟨.refl ℕ⟩
      choose! rank hitems _ using hpage
      have hle : ∀ k < total 0 / limit + 1, k * limit ≤ total 0 := fun k hk =>
        (Nat.le_div_iff_mul_le hlimit).mp (Nat.le_of_lt_succ hk)
      rw [map_flatMap_pages hrow fun k hk => hitems k (hle k hk)]
      have harranged : ∀ k < total 0 / limit + 1,
          Arranged createdAt rows (newestFirst (rank k) id createdAt rows) :=
        fun k _ => arranged_newestFirst (rank k) rows
      have hlt : rows.length < (total 0 / limit + 1) * limit := by
        rw [← htotal]
        exact (Nat.div_lt_iff_lt_mul hlimit).mp (Nat.lt_succ_self _)
      have hperm := hunsplit.perm_pages hlimit harranged hlt
      exact ⟨hperm.nodup_iff.mpr (List.Nodup.of_map id hids), fun a => hperm.mem_iff,
        hunsplit.pairwise_pages hlimit harranged⟩
    · obtain ⟨-, -, htotal⟩ := hpage k hk
      exact htotal

end Pages

/-! ### Invoices and customers -/

/-- The filter as a query parameter. -/
def stateParameter (state : Option InvoiceState) : String := state.elim "" InvoiceState.value

section Lists

variable {crypto : Crypto} {s : System} {business : Business} {limit : ℕ}

/-- The pages of `list_invoices` list every invoice of the business that matches the filter once. -/
def System.ListsInvoices (crypto : Crypto) (s : System) (business : Business)
    (state : Option InvoiceState) (limit : ℕ) : Prop :=
  s.ListsOnce crypto business limit (fun skip => .listInvoices (stateParameter state) skip limit)
    (fun skip items total => .invoices items total skip limit) Prod.fst Invoice.createdAt
    (s.world.db.invoicesOf business.id state)

/-- The pages of `list_customers` list every customer of the business once. -/
def System.ListsCustomers (crypto : Crypto) (s : System) (business : Business) (limit : ℕ) : Prop :=
  s.ListsOnce crypto business limit (fun skip => .listCustomers skip limit)
    (fun skip items total => .customers items total skip limit) (fun c => c) Customer.createdAt
    (s.world.db.customersOf business.id)

def listingInvoices (businessId : Uuid) (state : Option InvoiceState) (skip limit : ℕ) :
    Listing where
  count := .countInvoices businessId state
  page := .listInvoices businessId state skip limit
  result total items := .invoices items total skip limit

def listingCustomers (businessId : Uuid) (skip limit : ℕ) : Listing where
  count := .countCustomers businessId
  page := .listCustomers businessId skip limit
  result total items := .customers items total skip limit

theorem program_listInvoices (crypto : Crypto) (business : Business) (state : Option InvoiceState)
    (skip limit : ℕ) :
    Job.program crypto (.request business (.listInvoices (stateParameter state) skip limit)) =
      (listingInvoices business.id state skip limit).program := by
  cases state with
  | none => rfl
  | some st => cases st <;> rfl

theorem listsInvoices_iff (hs : s.Reachable crypto) (business : Business)
    (state : Option InvoiceState) (hlimit : 0 < limit) :
    s.ListsInvoices crypto business state limit ↔
      Unsplit Invoice.createdAt limit (s.world.db.invoicesOf business.id state) := by
  have hids : ((s.world.db.invoicesOf business.id state).map Invoice.id).Nodup :=
    s.world.db.invoices.nodup.sublist (List.filter_sublist.map _)
  refine listsOnce_iff (l := fun skip => listingInvoices business.id state skip limit)
    (f := fun rank => s.world.db.withLineItems rank) hs hlimit
    (fun skip => program_listInvoices crypto business state skip limit) (fun _ _ _ => rfl) ?_
    (fun _ _ => rfl) hids
  intro skip items items' total total' heq
  cases heq
  exact ⟨rfl, rfl⟩

theorem listsCustomers_iff (hs : s.Reachable crypto) (business : Business) (hlimit : 0 < limit) :
    s.ListsCustomers crypto business limit ↔
      Unsplit Customer.createdAt limit (s.world.db.customersOf business.id) := by
  have hids : ((s.world.db.customersOf business.id).map Customer.id).Nodup :=
    s.world.db.customers.nodup.sublist (List.filter_sublist.map _)
  refine listsOnce_iff (l := fun skip => listingCustomers business.id skip limit)
    (f := fun _ => id) hs hlimit (fun _ => rfl) (fun skip _ rank => ?_) ?_ (fun _ _ => rfl) hids
  · rw [List.map_id]
    rfl
  · intro skip items items' total total' heq
    cases heq
    exact ⟨rfl, rfl⟩

/-- **Paging through the invoices, or the customers, of a business lists everything exactly once if
and only if no page boundary splits the rows of one time.** -/
theorem lists_everything_once_iff (hs : s.Reachable crypto) (business : Business)
    (state : Option InvoiceState) (hlimit : 1 ≤ limit ∧ limit ≤ 100) :
    (s.ListsInvoices crypto business state limit ↔
      Unsplit Invoice.createdAt limit (s.world.db.invoicesOf business.id state)) ∧
    (s.ListsCustomers crypto business limit ↔
      Unsplit Customer.createdAt limit (s.world.db.customersOf business.id)) :=
  ⟨listsInvoices_iff hs business state hlimit.1, listsCustomers_iff hs business hlimit.1⟩

end Lists

/-- The business creates two invoices, the second one at this time. -/
def invoicing (now : Timestamp) : List Event :=
  registering ++ [.request (.createInvoice (sheets 1 Int.one_pos))] ++ Event.steps 1 7 ++
    [.request (.createInvoice (sheets 1 Int.one_pos))] ++
    List.replicate 7 (.exec 2 { ids := fun n => n + 10, now })

def invoiced : System :=
  (run (System.step sampleCrypto) .init (invoicing 1)).get (by decide +kernel)

theorem lists_everything_once_invoiced :
    invoiced.ListsInvoices sampleCrypto sampleBusiness none 1 ∧
      invoiced.ListsCustomers sampleCrypto sampleBusiness 1 := by
  have hreach : invoiced.Reachable sampleCrypto := reaches_of_run (Option.some_get _).symm
  obtain ⟨hinvoices, hcustomers⟩ :=
    lists_everything_once_iff hreach sampleBusiness none
      ⟨le_rfl, Nat.one_le_of_lt (Nat.lt_succ_self 99)⟩
  exact ⟨hinvoices.mpr (unsplit_of_nodup (by decide +kernel) 1),
    hcustomers.mpr (unsplit_of_nodup (by decide +kernel) 1)⟩

/-- Both invoices have been created at one time. -/
def invoicedAtOnce : System :=
  (run (System.step sampleCrypto) .init (invoicing 0)).get (by decide +kernel)

theorem not_lists_everything_once : ¬ ∀ (s : System) (business : Business)
    (state : Option InvoiceState) (limit : ℕ), s.Reachable sampleCrypto → 1 ≤ limit ∧ limit ≤ 100 →
      s.ListsInvoices sampleCrypto business state limit ∧
        s.ListsCustomers sampleCrypto business limit := by
  intro h
  have hreach : invoicedAtOnce.Reachable sampleCrypto := reaches_of_run (Option.some_get _).symm
  have hlimit : 1 ≤ 1 ∧ 1 ≤ 100 := ⟨le_rfl, Nat.one_le_of_lt (Nat.lt_succ_self 99)⟩
  have hunsplit := (listsInvoices_iff hreach sampleBusiness none Nat.one_pos).mp
    (h invoicedAtOnce sampleBusiness none 1 hreach hlimit).1
  have hsplit : (invoicedAtOnce.world.db.invoicesOf sampleBusiness.id none).any (fun v =>
      before Invoice.createdAt (invoicedAtOnce.world.db.invoicesOf sampleBusiness.id none)
        v.createdAt < 1 * 1 ∧ 1 * 1 < upTo Invoice.createdAt
          (invoicedAtOnce.world.db.invoicesOf sampleBusiness.id none) v.createdAt) = true := by
    decide +kernel
  obtain ⟨v, hv, hbetween⟩ := List.any_eq_true.mp hsplit
  exact hunsplit v hv 1 (of_decide_eq_true hbetween)

end TenantBilling
