import Mathlib.Data.List.Basic
import Mathlib.Order.Lattice

/-! Paging through rows sorted by a key, while rows come and go between the pages. The
token is the key of the last row of a page. -/

namespace Paging

variable {κ ρ σ : Type*} [LinearOrder κ] {key : ρ → κ} {size : Nat} {token next : Option κ}
  {rows : List ρ} {lists pages : List (List ρ)}

/-- The rows after the token. -/
def rest (key : ρ → κ) (token : Option κ) (rows : List ρ) : List ρ :=
  rows.filter (fun r => token.all (fun t => t < key r))

def page (key : ρ → κ) (size : Nat) (token : Option κ) (rows : List ρ) : List ρ × Option κ :=
  ((rest key token rows).take size,
    if size < (rest key token rows).length then ((rest key token rows).take size).getLast?.map key
    else none)

/-- The pages got by following the tokens, each from the rows as they are by then. -/
inductive Paged (key : ρ → κ) (size : Nat) :
    List (List ρ) → List (List ρ) → Option κ → Prop
  | first (rows : List ρ) :
      Paged key size [rows] [(page key size none rows).1] (page key size none rows).2
  | next {lists pages : List (List ρ)} {token : κ} (h : Paged key size lists pages (some token))
      (rows : List ρ) :
      Paged key size (lists ++ [rows]) (pages ++ [(page key size (some token) rows).1])
        (page key size (some token) rows).2

def Sorted (key : ρ → κ) (rows : List ρ) : Prop := rows.Pairwise (fun a b => key a < key b)

theorem mem_rest {r : ρ} : r ∈ rest key token rows ↔ r ∈ rows ∧ ∀ t ∈ token, t < key r := by
  unfold rest
  rw [List.mem_filter]
  cases token <;> simp

theorem mem_of_mem_page {r : ρ} (h : r ∈ (page key size token rows).1) :
    r ∈ rows ∧ ∀ t ∈ token, t < key r :=
  mem_rest.mp (List.mem_of_mem_take h)

theorem Sorted.page (h : Sorted key rows) : Sorted key (page key size token rows).1 :=
  (h.filter _).take

theorem exists_of_token {t : κ} (h : t ∈ (page key size token rows).2) :
    ∃ before r, (page key size token rows).1 = before ++ [r] ∧ key r = t := by
  unfold page at h ⊢
  split_ifs at h
  · obtain ⟨r, hr, hkey⟩ := Option.map_eq_some_iff.mp h
    exact ⟨_, r, (List.dropLast_append_getLast? r hr).symm, hkey⟩
  · cases h

theorem le_of_mem_page (h : Sorted key rows) {r : ρ} (hr : r ∈ (page key size token rows).1)
    {t : κ} (ht : t ∈ (page key size token rows).2) : key r ≤ t := by
  obtain ⟨before, last, hpage, rfl⟩ := exists_of_token ht
  have hsorted : Sorted key (page key size token rows).1 := h.page
  rw [hpage] at hr hsorted
  rcases List.mem_append.mp hr with hin | hlast
  · exact ((List.pairwise_append.mp hsorted).2.2 r hin last List.mem_cons_self).le
  · rw [List.mem_singleton.mp hlast]

theorem mem_page_of_le (hsize : 1 ≤ size) (h : Sorted key rows) {r : ρ} (hr : r ∈ rows)
    (ht : ∀ t ∈ token, t < key r) (hn : ∀ t ∈ (page key size token rows).2, key r ≤ t) :
    r ∈ (page key size token rows).1 := by
  have hrest : r ∈ rest key token rows := mem_rest.mpr ⟨hr, ht⟩
  have hsorted : Sorted key (rest key token rows) := h.filter _
  unfold page at hn ⊢
  generalize rest key token rows = after at *
  by_cases hlt : size < after.length
  · have hne : after.take size ≠ [] := by
      rw [← List.length_pos_iff, List.length_take]
      omega
    have hle := hn (key ((after.take size).getLast hne)) (by
      rw [if_pos hlt, List.getLast?_eq_some_getLast hne]
      rfl)
    rw [← List.take_append_drop size after] at hrest hsorted
    rcases List.mem_append.mp hrest with hin | hout
    · exact hin
    · have hgt := (List.pairwise_append.mp hsorted).2.2 _ (List.getLast_mem hne) r hout
      exact absurd hle (not_le.mpr hgt)
  · rw [List.take_of_length_le (by omega)]
    exact hrest

theorem flatten_concat (pages : List (List ρ)) (p : List ρ) :
    (pages ++ [p]).flatten = pages.flatten ++ p := by
  rw [List.flatten_append, List.flatten_singleton]

theorem Paged.mem_lists (h : Paged key size lists pages next) {r : ρ} (hr : r ∈ pages.flatten) :
    ∃ rows ∈ lists, r ∈ rows := by
  induction h with
  | first rows =>
    rw [List.flatten_singleton] at hr
    exact ⟨rows, List.mem_cons_self, (mem_of_mem_page hr).1⟩
  | next _ rows ih =>
    rw [flatten_concat] at hr
    rcases List.mem_append.mp hr with hold | hnew
    · obtain ⟨rows', hrows, hr⟩ := ih hold
      exact ⟨rows', List.mem_append_left _ hrows, hr⟩
    · exact ⟨rows, List.mem_append_right _ List.mem_cons_self, (mem_of_mem_page hnew).1⟩

theorem Paged.sorted (h : Paged key size lists pages next) (hs : ∀ rows ∈ lists, Sorted key rows) :
    Sorted key pages.flatten ∧ ∀ r ∈ pages.flatten, ∀ t ∈ next, key r ≤ t := by
  induction h with
  | first rows =>
    have hrows := hs rows List.mem_cons_self
    rw [List.flatten_singleton]
    exact ⟨hrows.page, fun r hr t ht => le_of_mem_page hrows hr ht⟩
  | @next lists pages token _ rows ih =>
    have hrows := hs rows (List.mem_append_right _ List.mem_cons_self)
    obtain ⟨hsorted, hle⟩ := ih fun rows' h' => hs rows' (List.mem_append_left _ h')
    have hafter : ∀ r ∈ (page key size (some token) rows).1, token < key r := fun r hr =>
      (mem_of_mem_page hr).2 token rfl
    rw [flatten_concat]
    refine ⟨List.pairwise_append.mpr ⟨hsorted, hrows.page, fun a ha b hb => ?_⟩, ?_⟩
    · exact (hle a ha token rfl).trans_lt (hafter b hb)
    · intro r hr t ht
      rcases List.mem_append.mp hr with hold | hnew
      · obtain ⟨before, last, hpage, rfl⟩ := exists_of_token ht
        have hlast := hafter last (by simp [hpage])
        exact (hle r hold token rfl).trans hlast.le
      · exact le_of_mem_page hrows hnew ht

/-- A row that is there at every page has been got once the token is not below it. -/
theorem Paged.complete (h : Paged key size lists pages next) (hsize : 1 ≤ size)
    (hs : ∀ rows ∈ lists, Sorted key rows) {r : ρ} (hr : ∀ rows ∈ lists, r ∈ rows)
    (hn : ∀ t ∈ next, key r ≤ t) : r ∈ pages.flatten := by
  induction h with
  | first rows =>
    rw [List.flatten_singleton]
    exact mem_page_of_le hsize (hs rows List.mem_cons_self) (hr rows List.mem_cons_self) nofun hn
  | @next lists pages token _ rows ih =>
    have hmem : rows ∈ lists ++ [rows] := List.mem_append_right _ List.mem_cons_self
    rw [flatten_concat, List.mem_append]
    by_cases hle : key r ≤ token
    · refine Or.inl (ih (fun rows' h' => hs rows' (List.mem_append_left _ h'))
        (fun rows' h' => hr rows' (List.mem_append_left _ h')) fun t ht => ?_)
      rw [← Option.some.inj ht]
      exact hle
    · refine Or.inr (mem_page_of_le hsize (hs rows hmem) (hr rows hmem) (fun t ht => ?_) hn)
      rw [← Option.some.inj ht]
      exact not_le.mp hle

theorem Paged.length_le (h : Paged key size lists pages next) :
    pages.length ≤ pages.flatten.length + 1 ∧
      (next.isSome = true → pages.length ≤ pages.flatten.length) := by
  have hrow : ∀ {token rows}, (page key size token rows).2.isSome = true →
      1 ≤ (page key size token rows).1.length := by
    intro token rows hsome
    obtain ⟨t, ht⟩ := Option.isSome_iff_exists.mp hsome
    obtain ⟨before, r, hpage, _⟩ := exists_of_token ht
    rw [hpage, List.length_append, List.length_singleton]
    omega
  induction h with
  | first rows =>
    rw [List.flatten_singleton, List.length_singleton]
    exact ⟨by omega, hrow⟩
  | next _ rows ih =>
    have hlength := ih.2 rfl
    rw [flatten_concat, List.length_append, List.length_append, List.length_singleton]
    exact ⟨by omega, fun hsome => by have hone := hrow hsome; omega⟩

theorem page_map (f : σ → ρ) (rows : List σ) : page key size token (rows.map f) =
    ((page (key ∘ f) size token rows).1.map f, (page (key ∘ f) size token rows).2) := by
  have hrest : rest key token (rows.map f) = (rest (key ∘ f) token rows).map f := by
    unfold rest
    rw [List.filter_map]
    rfl
  unfold page
  rw [hrest, List.length_map, ← List.map_take, List.getLast?_map, Option.map_map]

end Paging
