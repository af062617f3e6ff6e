import Mathlib.Data.Finset.Union
import Mathlib.Data.Set.Finite.Basic
import OpenPubusb.Metadata
import OpenPubusb.Paging

/-! The pages of the three listings. Topics and snapshots are cut at the end of the rows up
to the token, subscriptions at the first row after it: both are the same page. -/

namespace OpenPubusb

/-- What the names of the project's resources of the kind start with. -/
def Kind.root (projectId : String) : Kind → String
  | .topic => s!"projects/{projectId}/topics/"
  | .subscription => s!"projects/{projectId}/subscriptions/"
  | .snapshot => s!"projects/{projectId}/snapshots/"

def Kv.names (kv : Kv) : Kind → SortedMap String Nat
  | .topic => kv.topicNames
  | .subscription => kv.subNames
  | .snapshot => kv.snapNames

/-- One page of a listing, by the names and ids of its records. -/
def listing (kind : Kind) (kv : Kv) (projectId : String) (pageSize : Nat)
    (pageToken : Option String) : Result (List (String × Nat) × Option String) :=
  match kind with
  | .topic => (TopicStore.list kv projectId pageSize pageToken).map fun page =>
      (page.1.map fun r => (r.name, r.id), page.2)
  | .subscription => (SubscriptionStore.list kv projectId pageSize pageToken).map fun page =>
      (page.1.map fun r => (r.name, r.id), page.2)
  | .snapshot => (SnapshotStore.list kv projectId pageSize pageToken).map fun page =>
      (page.1.map fun r => (r.name, r.id), page.2)

def Kind.NameIn (kind : Kind) (projectId name : String) : Prop :=
  ∃ id, name = kind.root projectId ++ id

section Cut

variable {ρ : Type} {key : ρ → String} {l : List ρ} {token : Option String} {start n : Nat}

theorem drop_takeWhile (h : Paging.Sorted key l) (t : String) :
    l.drop (l.takeWhile (fun r => key r ≤ t)).length = Paging.rest key (some t) l := by
  induction l with
  | nil => rfl
  | cons a l ih =>
    obtain ⟨ha, hl⟩ := List.pairwise_cons.mp h
    by_cases hle : key a ≤ t
    · have hnot : ¬ t < key a := not_lt.mpr hle
      rw [List.takeWhile_cons_of_pos (by simpa using hle), List.length_cons, List.drop_succ_cons,
        ih hl, Paging.rest, Paging.rest, List.filter_cons_of_neg (by simpa using hnot)]
    · rw [List.takeWhile_cons_of_neg (by simpa using hle), List.length_nil, List.drop_zero]
      refine (List.filter_eq_self.mpr fun b hb => ?_).symm
      have hlt : t < key b := by
        rcases List.mem_cons.mp hb with rfl | hb
        · exact not_le.mp hle
        · exact (not_le.mp hle).trans (ha b hb)
      simpa using hlt

theorem drop_findIdx (h : Paging.Sorted key l) (t : String) :
    l.drop ((l.findIdx? (fun r => t < key r)).getD l.length) =
      Paging.rest key (some t) l := by
  induction l with
  | nil => rfl
  | cons a l ih =>
    obtain ⟨ha, hl⟩ := List.pairwise_cons.mp h
    rw [List.findIdx?_cons]
    by_cases hlt : t < key a
    · rw [if_pos (by simpa using hlt), Option.getD_some, List.drop_zero]
      refine (List.filter_eq_self.mpr fun b hb => ?_).symm
      have hlt' : t < key b := by
        rcases List.mem_cons.mp hb with rfl | hb
        · exact hlt
        · exact hlt.trans (ha b hb)
      simpa using hlt'
    · have hrest : Paging.rest key (some t) (a :: l) = Paging.rest key (some t) l :=
        List.filter_cons_of_neg (by simpa using hlt)
      rw [if_neg (by simpa using hlt), hrest, ← ih hl]
      cases l.findIdx? (fun r => t < key r) <;> rfl

theorem cut_eq_page (hstart : start ≤ l.length) (hdrop : l.drop start = Paging.rest key token l) :
    ((l.drop start).take (min (start + n) l.length - start),
      if min (start + n) l.length < l.length
        then ((l.drop start).take (min (start + n) l.length - start)).getLast?.map key else none) =
      Paging.page key n token l := by
  have hlen := congrArg List.length hdrop
  rw [List.length_drop] at hlen
  have htake : (l.drop start).take (min (start + n) l.length - start) =
      (Paging.rest key token l).take n := by
    rw [hdrop, List.take_eq_take_iff]
    omega
  have hmore : min (start + n) l.length < l.length ↔ n < (Paging.rest key token l).length := by
    omega
  rw [htake, Paging.page]
  simp only [hmore]

theorem pageAfter_eq (h : Paging.Sorted key l) :
    pageAfter key l n token = Paging.page key n token l := by
  have hsorted : l.insertionSort (fun a b => key a ≤ key b) = l :=
    (h.imp fun hlt => hlt.le).insertionSort_eq
  unfold pageAfter
  rw [hsorted]
  cases token with
  | none =>
    refine cut_eq_page (Nat.zero_le _) ?_
    exact (List.filter_eq_self.mpr fun _ _ => rfl).symm
  | some t => exact cut_eq_page (List.takeWhile_sublist _).length_le (drop_takeWhile h t)

theorem mapM_eq {α β : Type} {load : α → Result β} {entry : β → α} {l : List α}
    (h : ∀ a ∈ l, ∃ r, load a = .ok r ∧ entry r = a) :
    ∃ rs, l.mapM load = .ok rs ∧ rs.map entry = l := by
  induction l with
  | nil => exact ⟨[], rfl, rfl⟩
  | cons a l ih =>
    obtain ⟨r, hr, hentry⟩ := h a List.mem_cons_self
    obtain ⟨rs, hrs, hmap⟩ := ih fun b hb => h b (List.mem_cons_of_mem _ hb)
    refine ⟨r :: rs, ?_, by rw [List.map_cons, hentry, hmap]⟩
    rw [List.mapM_cons, hr, hrs]
    rfl

theorem pageAfter_records {name : ρ → String} {id : ρ → Nat} {rs : List ρ}
    {entries : List (String × Nat)} (h : Paging.Sorted Prod.fst entries)
    (hmap : rs.map (fun r => (name r, id r)) = entries) :
    ((pageAfter name rs n token).1.map (fun r => (name r, id r)), (pageAfter name rs n token).2) =
      Paging.page Prod.fst n token entries := by
  subst hmap
  have hsorted : Paging.Sorted name rs := by
    unfold Paging.Sorted at h ⊢
    rwa [List.pairwise_map] at h
  rw [pageAfter_eq hsorted, Paging.page_map]
  rfl

end Cut

section Stores

variable {kv : Kv} {projectId : String} {pageSize : Nat} {token : Option String}

def listed (kind : Kind) (kv : Kv) (projectId : String) : List (String × Nat) :=
  (kv.names kind).entries.filter (fun e => startsWith e.1 (kind.root projectId))

theorem listed_sorted (kind : Kind) (kv : Kv) (projectId : String) :
    Paging.Sorted Prod.fst (listed kind kv projectId) := (kv.names kind).sorted.filter _

theorem mem_listed {kind : Kind} {name : String} {id : Nat} :
    (name, id) ∈ listed kind kv projectId ↔
      (kv.names kind).get name = some id ∧ kind.NameIn projectId name := by
  have hname : startsWith name (kind.root projectId) = true ↔
      kind.NameIn projectId name := by
    unfold startsWith Kind.NameIn
    rw [List.isPrefixOf_iff_prefix]
    constructor
    · rintro ⟨t, ht⟩
      refine ⟨String.ofList t, String.toList_inj.mp ?_⟩
      rw [String.toList_append, String.toList_ofList, ht]
    · rintro ⟨id, rfl⟩
      exact ⟨id.toList, String.toList_append.symm⟩
  rw [listed, List.mem_filter, SortedMap.mem_entries, hname]

/-- The listings that load every record of the project before they cut the page. -/
theorem loaded_eq_page {ρ : Type} {kind : Kind} {load : Nat → Result ρ} {name : ρ → String}
    {id : ρ → Nat}
    (h : ∀ n i, (kv.names kind).get n = some i → ∃ r, load i = .ok r ∧ name r = n ∧ id r = i) :
    (((listed kind kv projectId).mapM (fun e => load e.2) >>= fun rs =>
        pure (pageAfter name rs pageSize token) : Result (List ρ × Option String)).map fun page =>
      (page.1.map fun r => (name r, id r), page.2)) =
      .ok (Paging.page Prod.fst pageSize token (listed kind kv projectId)) := by
  obtain ⟨rs, hrs, hmap⟩ := @mapM_eq _ _ (fun e => load e.2) (fun r => (name r, id r))
    (listed kind kv projectId) fun e he => by
      obtain ⟨r, hr, hname, hid⟩ := h e.1 e.2 (mem_listed.mp he).1
      exact ⟨r, hr, Prod.ext hname hid⟩
  rw [hrs, ← pageAfter_records (listed_sorted _ _ _) hmap]
  rfl

def startAt (names : List String) : Option String → Nat
  | some token => (names.findIdx? (fun n => token < n)).getD names.length
  | none => 0

theorem startAt_spec {entries : List (String × Nat)} (h : Paging.Sorted Prod.fst entries)
    (token : Option String) : startAt (entries.map Prod.fst) token ≤ entries.length ∧
      entries.drop (startAt (entries.map Prod.fst) token) = Paging.rest Prod.fst token entries := by
  cases token with
  | none => exact ⟨Nat.zero_le _, (List.filter_eq_self.mpr fun _ _ => rfl).symm⟩
  | some t =>
    have hfind : startAt (entries.map Prod.fst) (some t) =
        (entries.findIdx? (fun e => t < e.1)).getD entries.length := by
      rw [startAt, List.findIdx?_map, List.length_map]
      rfl
    rw [hfind]
    refine ⟨?_, drop_findIdx h t⟩
    cases hi : entries.findIdx? (fun e => t < e.1) with
    | none => exact le_rfl
    | some i => exact (List.findIdx?_eq_some_iff_getElem.mp hi).1.le

/-- The listing that looks for its first name, and loads the records of its page only. -/
theorem listSubscriptions_eq_page (hc : Consistent kv) (hsize : 1 ≤ pageSize) :
    listing .subscription kv projectId pageSize token =
      .ok (Paging.page Prod.fst pageSize token (listed .subscription kv projectId)) := by
  have hrecords : ∀ e ∈ listed .subscription kv projectId,
      ∃ r : SubscriptionRecord, SubscriptionStore.get kv e.1 = .ok r ∧ (r.name, r.id) = e := by
    intro e he
    obtain ⟨r, hr, hname⟩ := hc.subs.named (mem_listed.mp he).1
    refine ⟨r, ?_, Prod.ext hname (hc.subs.record hr).2⟩
    rw [← hname]
    exact Consistent.get_name hc hr
  have hsorted := listed_sorted .subscription kv projectId
  have hnames : kv.subNames.keys.filter
      (fun n => startsWith n s!"projects/{projectId}/subscriptions/") =
      (listed .subscription kv projectId).map Prod.fst := List.filter_map
  generalize listed .subscription kv projectId = entries at *
  obtain ⟨hstart, hdrop⟩ := startAt_spec hsorted token
  have hcall : SubscriptionStore.list kv projectId pageSize token =
      ((((entries.map Prod.fst).drop (startAt (entries.map Prod.fst) token)).take
        (min (startAt (entries.map Prod.fst) token + pageSize) entries.length -
          startAt (entries.map Prod.fst) token)).mapM (SubscriptionStore.get kv) >>= fun records =>
      pure (records,
        if min (startAt (entries.map Prod.fst) token + pageSize) entries.length < entries.length then
          (entries.map Prod.fst)[
            min (startAt (entries.map Prod.fst) token + pageSize) entries.length - 1]?
        else none)) := by
    have hne : pageSize ≠ 0 := by omega
    unfold SubscriptionStore.list
    simp only [hnames, if_neg hne, List.length_map]
    cases token with
    | none => rfl
    | some t => simp only [startAt, List.length_map]
  generalize startAt (entries.map Prod.fst) token = start at hstart hdrop hcall
  have hpage := @cut_eq_page _ _ _ token _ pageSize hstart hdrop
  have hmem : ∀ e ∈ (entries.drop start).take (min (start + pageSize) entries.length - start),
      ∃ r : SubscriptionRecord, SubscriptionStore.get kv e.1 = .ok r ∧ (r.name, r.id) = e :=
    fun e he => hrecords e (List.mem_of_mem_drop (List.mem_of_mem_take he))
  obtain ⟨rs, hload, hmap⟩ := mapM_eq hmem
  have hrs : ((entries.drop start).take (min (start + pageSize) entries.length - start)).mapM
      (SubscriptionStore.get kv ∘ Prod.fst) = .ok rs := hload
  have hlast : min (start + pageSize) entries.length < entries.length →
      (entries.map Prod.fst)[min (start + pageSize) entries.length - 1]? =
      ((entries.drop start).take (min (start + pageSize) entries.length - start)).getLast?.map
        Prod.fst := by
    intro hlt
    rw [List.getLast?_take, if_neg (by omega), List.getElem?_drop, List.getElem?_map,
      show start + (min (start + pageSize) entries.length - start - 1) =
        min (start + pageSize) entries.length - 1 by omega,
      List.getElem?_eq_getElem (by omega)]
    rfl
  rw [← List.map_drop, ← List.map_take, List.mapM_map, hrs] at hcall
  change (SubscriptionStore.list kv projectId pageSize token).map _ = _
  rw [hcall, ← hpage]
  change Except.ok (rs.map _, _) = _
  rw [hmap]
  by_cases hlt : min (start + pageSize) entries.length < entries.length
  · rw [if_pos hlt, if_pos hlt, hlast hlt]
  · rw [if_neg hlt, if_neg hlt]

theorem listing_eq_page (hc : Consistent kv) (hsize : 1 ≤ pageSize) (kind : Kind) :
    listing kind kv projectId pageSize token =
      .ok (Paging.page Prod.fst pageSize token (listed kind kv projectId)) := by
  cases kind with
  | topic =>
    refine @loaded_eq_page kv projectId pageSize token _ .topic (TopicStore.loadRecord kv)
      TopicRecord.name TopicRecord.id fun n i hn => ?_
    obtain ⟨r, hr, hname⟩ := hc.topics.named hn
    refine ⟨r, ?_, hname, (hc.topics.record hr).2⟩
    unfold TopicStore.loadRecord
    rw [hr]
  | subscription => exact listSubscriptions_eq_page hc hsize
  | snapshot =>
    refine @loaded_eq_page kv projectId pageSize token _ .snapshot (SnapshotStore.loadRecord kv)
      SnapshotRecord.name SnapshotRecord.id fun n i hn => ?_
    obtain ⟨r, hr, hname⟩ := hc.snaps.named hn
    refine ⟨r, ?_, hname, (hc.snaps.record hr).2⟩
    unfold SnapshotStore.loadRecord
    rw [hr]

end Stores

section Runs

variable {kind : Kind} {projectId : String} {pageSize : Nat}

theorem Consistent.names_iff {kv : Kv} (hc : Consistent kv) {name : String} {id : Nat} :
    (kv.names kind).get name = some id ↔ kv.Holds id kind name := by
  have hindexed : ∀ {ρ : Type} {nameOf : ρ → String} {idOf : ρ → Nat} {names : SortedMap String Nat}
      {records : SortedMap Nat ρ}, Directory.Indexed nameOf idOf names records →
      (names.get name = some id ↔ (records.get id).map nameOf = some name) := by
    intro ρ nameOf idOf names records h
    constructor
    · intro hn
      obtain ⟨r, hr, hname⟩ := h.named hn
      rw [hr, ← hname]
      rfl
    · intro hr
      obtain ⟨r, hr, hname⟩ := Option.map_eq_some_iff.mp hr
      rw [← hname]
      exact (h.record hr).1
  cases kind with
  | topic => exact hindexed hc.topics
  | subscription => exact hindexed hc.subs
  | snapshot => exact hindexed hc.snaps

/-- Pages got by following the tokens, with any calls between two requests: each request is
made after its own history, which goes on from that of the one before. -/
inductive PagedThrough (kind : Kind) (projectId : String) (pageSize : Nat) :
    List (List Input) → List (List (String × Nat)) → Option String → Prop
  | first {is : List Input} {page : List (String × Nat)} {next : Option String}
      (h : listing kind (Run.final step start is).kv projectId pageSize none = .ok (page, next)) :
      PagedThrough kind projectId pageSize [is] [page] next
  | next {hs : List (List Input)} {is js : List Input} {pages : List (List (String × Nat))}
      {page : List (String × Nat)} {token : String} {next : Option String}
      (h : PagedThrough kind projectId pageSize (hs ++ [is]) pages (some token))
      (hpage : listing kind (Run.final step start (is ++ js)).kv projectId pageSize (some token) =
        .ok (page, next)) :
      PagedThrough kind projectId pageSize (hs ++ [is] ++ [is ++ js]) (pages ++ [page]) next

theorem PagedThrough.paged {hs : List (List Input)} {pages : List (List (String × Nat))}
    {next : Option String} (h : PagedThrough kind projectId pageSize hs pages next)
    (hsize : 1 ≤ pageSize) : Paging.Paged Prod.fst pageSize
      (hs.map fun is => listed kind (Run.final step start is).kv projectId) pages next := by
  have hlisting : ∀ (is : List Input) token page next,
      listing kind (Run.final step start is).kv projectId pageSize token = .ok (page, next) →
      Paging.page Prod.fst pageSize token (listed kind (Run.final step start is).kv projectId) =
        (page, next) := by
    intro is token page next hpage
    rw [listing_eq_page (consistent_final is).1 hsize kind] at hpage
    exact Except.ok.inj hpage
  induction h with
  | @first is page next h =>
    have hfirst := @Paging.Paged.first _ _ _ Prod.fst pageSize
      (listed kind (Run.final step start is).kv projectId)
    rw [hlisting _ _ _ _ h] at hfirst
    exact hfirst
  | @next hs is js pages page token next _ hpage ih =>
    have hnext := ih.next (listed kind (Run.final step start (is ++ js)).kv projectId)
    rw [hlisting _ _ _ _ hpage] at hnext
    rw [List.map_append]
    exact hnext

/-- The state of a run that goes on for ever, after so many calls. -/
def stateAt (f : Nat → Input) (n : Nat) : Engine := Run.final step start ((List.range n).map f)

/-- The call gives a resource of the kind a name that was free. -/
def CreatesAt (kind : Kind) (f : Nat → Input) (n : Nat) : Prop :=
  ∃ name, ((stateAt f n).kv.names kind).get name = none ∧
    (((stateAt f (n + 1)).kv.names kind).get name).isSome

theorem named_of_creates {f : Nat → Input} {t : Nat} {name : String}
    (h : name ∈ ((stateAt f t).kv.names kind).keys) :
    ∃ n, CreatesAt kind f n ∧ name ∈ ((stateAt f (n + 1)).kv.names kind).keys := by
  induction t with
  | zero =>
    have hempty : ((stateAt f 0).kv.names kind).keys = [] := by cases kind <;> rfl
    rw [hempty] at h
    cases h
  | succ t ih =>
    by_cases hold : name ∈ ((stateAt f t).kv.names kind).keys
    · exact ih hold
    · refine ⟨t, ⟨name, ?_, ?_⟩, h⟩
      · rw [SortedMap.mem_keys] at hold
        exact Option.eq_none_iff_forall_ne_some.mpr fun id hid => hold ⟨id, hid⟩
      · obtain ⟨id, hid⟩ := SortedMap.mem_keys.mp h
        rw [hid]
        rfl

theorem pages_bounded {f : Nat → Input} (hsize : 1 ≤ pageSize)
    (hfin : {n | CreatesAt kind f n}.Finite) : ∃ bound, ∀ (ts : List Nat) pages next,
      PagedThrough kind projectId pageSize (ts.map fun t => (List.range t).map f) pages next →
      pages.length ≤ bound := by
  let names := hfin.toFinset.biUnion fun n => ((stateAt f (n + 1)).kv.names kind).keys.toFinset
  refine ⟨names.card + 1, fun ts pages next h => ?_⟩
  have hpaged := h.paged hsize
  obtain ⟨hsorted, _⟩ := hpaged.sorted fun rows hrows => by
    obtain ⟨is, _, rfl⟩ := List.mem_map.mp hrows
    exact listed_sorted ..
  have hnodup : (pages.flatten.map Prod.fst).Nodup :=
    List.pairwise_map.mpr (hsorted.imp fun hlt => ne_of_lt hlt)
  have hsub : (pages.flatten.map Prod.fst).toFinset ⊆ names := by
    intro name hname
    obtain ⟨⟨_, id⟩, he, rfl⟩ := List.mem_map.mp (List.mem_toFinset.mp hname)
    obtain ⟨rows, hrows, hin⟩ := hpaged.mem_lists he
    obtain ⟨is, his, rfl⟩ := List.mem_map.mp hrows
    obtain ⟨t, _, rfl⟩ := List.mem_map.mp his
    obtain ⟨n, hn, hkey⟩ := @named_of_creates kind f t _
      (SortedMap.mem_keys.mpr ⟨id, (mem_listed.mp hin).1⟩)
    exact Finset.mem_biUnion.mpr ⟨n, hfin.mem_toFinset.mpr hn, List.mem_toFinset.mpr hkey⟩
  have hcard := Finset.card_le_card hsub
  rw [List.toFinset_card_of_nodup hnodup, List.length_map] at hcard
  have hlength := hpaged.length_le.1
  omega

/-- Every page request is answered; the pages have resources of the project only, go up in
name order across all of them, and once there is no token have every resource that was
there at each request; while only finitely many resources are created, the pages end. -/
theorem paging_complete (kind : Kind) (projectId : String) {pageSize : Nat}
    (hsize : 1 ≤ pageSize) :
    (∀ is token, ∃ page next,
      listing kind (Run.final step start is).kv projectId pageSize token = .ok (page, next)) ∧
    (∀ hs pages next, PagedThrough kind projectId pageSize hs pages next →
      (∀ e ∈ pages.flatten, kind.NameIn projectId e.1 ∧
        ∃ is ∈ hs, (Run.final step start is).kv.Holds e.2 kind e.1) ∧
      (pages.flatten.map Prod.fst).Pairwise (· < ·) ∧
      (next = none → ∀ id name, kind.NameIn projectId name →
        (∀ is ∈ hs, (Run.final step start is).kv.Holds id kind name) →
        (name, id) ∈ pages.flatten)) ∧
    ∀ f : Nat → Input, {n | CreatesAt kind f n}.Finite → ∃ bound, ∀ (ts : List Nat) pages next,
      PagedThrough kind projectId pageSize (ts.map fun t => (List.range t).map f) pages next →
      pages.length ≤ bound := by
  refine ⟨fun is token => ⟨_, _, listing_eq_page (consistent_final is).1 hsize kind⟩,
    fun hs pages next h => ?_, fun f hfin => pages_bounded hsize hfin⟩
  have hpaged := h.paged hsize
  have hlists : ∀ rows ∈ hs.map fun is => listed kind (Run.final step start is).kv projectId,
      Paging.Sorted Prod.fst rows := by
    intro rows hrows
    obtain ⟨is, _, rfl⟩ := List.mem_map.mp hrows
    exact listed_sorted ..
  refine ⟨fun e he => ?_, List.pairwise_map.mpr (hpaged.sorted hlists).1,
    fun hnext id name hname hall => ?_⟩
  · obtain ⟨rows, hrows, hin⟩ := hpaged.mem_lists he
    obtain ⟨is, his, rfl⟩ := List.mem_map.mp hrows
    obtain ⟨hget, hname⟩ := mem_listed.mp hin
    exact ⟨hname, is, his, (consistent_final is).1.names_iff.mp hget⟩
  · refine hpaged.complete hsize hlists (fun rows hrows => ?_) (by rw [hnext]; nofun)
    obtain ⟨is, his, rfl⟩ := List.mem_map.mp hrows
    exact mem_listed.mpr ⟨(consistent_final is).1.names_iff.mpr (hall is his), hname⟩

def twoTopics : List Input :=
  setup {} ++ [⟨0, .createTopic "projects/p/topics/top2" ∅ none none false false⟩]

/-- The topic that the token of the first page names. -/
def deleteFirst : Input := ⟨0, .deleteTopic "projects/p/topics/top1"⟩

theorem toOption_eq_some {α : Type} {x : Result α} {a : α} (h : x.toOption = some a) : x = .ok a := by
  cases x with
  | ok b => exact congrArg Except.ok (Option.some.inj h)
  | error e => cases h

/-- Pages of one topic each, and the topic of the first page is deleted before the second
request. -/
theorem paging_complete_two_pages :
    PagedThrough .topic "p" 1 [twoTopics, twoTopics ++ [deleteFirst]]
      [[("projects/p/topics/top1", 1)], [("projects/p/topics/top2", 4)]] none ∧
    ∀ id name, Kind.NameIn .topic "p" name →
      (Run.final step start twoTopics).kv.Holds id .topic name →
      (Run.final step start (twoTopics ++ [deleteFirst])).kv.Holds id .topic name →
      (name, id) ∈ [("projects/p/topics/top1", 1), ("projects/p/topics/top2", 4)] := by
  have hfirst : (listing .topic (Run.final step start twoTopics).kv "p" 1 none).toOption =
      some ([("projects/p/topics/top1", 1)], some "projects/p/topics/top1") := by
    decide +kernel
  have hsecond : (listing .topic (Run.final step start (twoTopics ++ [deleteFirst])).kv "p" 1
      (some "projects/p/topics/top1")).toOption = some ([("projects/p/topics/top2", 4)], none) := by
    decide +kernel
  have hpages : PagedThrough .topic "p" 1 [twoTopics, twoTopics ++ [deleteFirst]]
      [[("projects/p/topics/top1", 1)], [("projects/p/topics/top2", 4)]] none :=
    @PagedThrough.next .topic "p" 1 [] twoTopics [deleteFirst] _ _ _ _
      (.first (toOption_eq_some hfirst)) (toOption_eq_some hsecond)
  obtain ⟨_, hcomplete, _⟩ := paging_complete .topic "p" (show 1 ≤ 1 by decide)
  refine ⟨hpages, fun id name hname hbefore hafter => ?_⟩
  apply (hcomplete _ _ _ hpages).2.2 rfl id name hname
  intro is his
  simp only [List.mem_cons, List.not_mem_nil, or_false] at his
  rcases his with rfl | rfl
  · exact hbefore
  · exact hafter

end Runs

end OpenPubusb
