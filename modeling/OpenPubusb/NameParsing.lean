import OpenPubusb.Names

/-! Which strings are resource names, and that a name is put together from its project and
its id. -/

namespace Segments

variable {α : Type} [DecidableEq α]

/-- `splitn`: at most `n` pieces, of which the last is the remainder. -/
def splitN (sep : α) : Nat → List α → List (List α)
  | 0, _ => []
  | 1, xs => [xs]
  | n + 2, xs =>
    match xs.dropWhile (· ≠ sep) with
    | [] => [xs]
    | _ :: rest => xs.takeWhile (· ≠ sep) :: splitN sep (n + 1) rest

variable {sep : α} {xs : List α}

theorem splitN_append {n : Nat} {piece : List α} (h : sep ∉ piece) (rest : List α) :
    splitN sep (n + 2) (piece ++ sep :: rest) = piece :: splitN sep (n + 1) rest := by
  have hpass : ∀ x ∈ piece, decide (x ≠ sep) = true :=
    fun x hx => decide_eq_true fun he => h (he ▸ hx)
  have hdrop : (piece ++ sep :: rest).dropWhile (· ≠ sep) = sep :: rest := by
    rw [List.dropWhile_append_of_pos hpass]
    simp
  have htake : (piece ++ sep :: rest).takeWhile (· ≠ sep) = piece := by
    rw [List.takeWhile_append_of_pos hpass]
    simp
  rw [splitN, hdrop, htake]

theorem not_mem_of_mem_splitOn {piece : List α} (h : piece ∈ xs.splitOn sep) : sep ∉ piece := by
  induction xs generalizing piece with
  | nil =>
    rw [List.splitOn_nil, List.mem_singleton] at h
    rw [h]
    exact List.not_mem_nil
  | cons x xs ih =>
    rw [List.splitOn_cons_eq_if_modifyHead] at h
    cases hs : xs.splitOn sep with
    | nil => exact absurd hs (List.splitOn_ne_nil sep xs)
    | cons head tail =>
      rw [hs] at h ih
      have htail : ∀ l ∈ tail, sep ∉ l := fun l hl => ih (List.mem_cons_of_mem _ hl)
      split_ifs at h with hx
      · rcases List.mem_cons.mp h with rfl | h
        · exact List.not_mem_nil
        · exact ih h
      · rcases List.mem_cons.mp h with rfl | h
        · intro hmem
          rcases List.mem_cons.mp hmem with rfl | hmem
          · simp at hx
          · exact ih List.mem_cons_self hmem
        · exact htail _ h

theorem splitOn_eq_four_iff {a b c d : List α} : xs.splitOn sep = [a, b, c, d] ↔
    xs = a ++ sep :: (b ++ sep :: (c ++ sep :: d)) ∧ sep ∉ a ∧ sep ∉ b ∧ sep ∉ c ∧ sep ∉ d := by
  have hjoin : [sep].intercalate [a, b, c, d] = a ++ sep :: (b ++ sep :: (c ++ sep :: d)) := by
    simp [List.intercalate]
  constructor
  · intro h
    have hfree : ∀ l ∈ [a, b, c, d], sep ∉ l := fun l hl => not_mem_of_mem_splitOn (h ▸ hl)
    have hxs := @List.intercalate_splitOn _ xs _ _ sep
    rw [h, hjoin] at hxs
    simp only [List.mem_cons, List.not_mem_nil, or_false, forall_eq_or_imp, forall_eq] at hfree
    exact ⟨hxs.symm, hfree⟩
  · rintro ⟨rfl, ha, hb, hc, hd⟩
    rw [← hjoin]
    refine List.splitOn_intercalate sep (fun l hl => ?_) (by simp)
    simp only [List.mem_cons, List.not_mem_nil, or_false] at hl
    rcases hl with rfl | rfl | rfl | rfl
    · exact ha
    · exact hb
    · exact hc
    · exact hd

end Segments

namespace OpenPubusb

open Segments

def splitFullName (fullName : String) : String × String :=
  let parts := splitN '/' 4 fullName.toList
  (String.ofList ((parts[1]?).getD []), String.ofList ((parts[3]?).getD []))

def ResourceName.projectId {kind : String} (n : ResourceName kind) : String :=
  (splitFullName n.fullName).1

def ResourceName.resourceId {kind : String} (n : ResourceName kind) : String :=
  (splitFullName n.fullName).2

namespace TopicName

def isDeletedSentinel (n : TopicName) : Bool := n.fullName == deletedTopic

def projectId (n : TopicName) : String :=
  if n.isDeletedSentinel then "" else (splitFullName n.fullName).1

def resourceId (n : TopicName) : String :=
  if n.isDeletedSentinel then deletedTopic else (splitFullName n.fullName).2

end TopicName

/-- What an id may be. -/
structure ValidId (id : String) : Prop where
  length : 3 ≤ id.length ∧ id.length ≤ 255
  chars : ∀ c ∈ id.toList, ('a' ≤ c ∧ c ≤ 'z' ∨ 'A' ≤ c ∧ c ≤ 'Z') ∨ ('0' ≤ c ∧ c ≤ '9') ∨
    c ∈ ['-', '_', '.', '~', '+', '%']
  first : ∃ c rest, id.toList = c :: rest ∧ ('a' ≤ c ∧ c ≤ 'z' ∨ 'A' ≤ c ∧ c ≤ 'Z')
  notGoog : ¬ "goog".toList <+: id.toList

/-- The path of the resource `id` of a project. -/
def fullNameOf (kind project id : String) : String :=
  "projects/" ++ project ++ "/" ++ kind ++ "/" ++ id

/-- A path of the kind. -/
def NameShape (kind fullName : String) : Prop :=
  ∃ project id, fullName = fullNameOf kind project id ∧ project ≠ "" ∧ '/' ∉ project.toList ∧
    ValidId id

theorem isAsciiAlphabetic_iff {c : Char} :
    isAsciiAlphabetic c = true ↔ 'a' ≤ c ∧ c ≤ 'z' ∨ 'A' ≤ c ∧ c ≤ 'Z' := by
  simp only [isAsciiAlphabetic, Bool.or_eq_true, Bool.and_eq_true, decide_eq_true_eq]

theorem isValidIdChar_iff {c : Char} : isValidIdChar c = true ↔
    ('a' ≤ c ∧ c ≤ 'z' ∨ 'A' ≤ c ∧ c ≤ 'Z') ∨ ('0' ≤ c ∧ c ≤ '9') ∨
      c ∈ ['-', '_', '.', '~', '+', '%'] := by
  simp only [isValidIdChar, isAsciiAlphanumeric, Bool.or_eq_true, isAsciiAlphabetic_iff,
    Bool.and_eq_true, decide_eq_true_eq, beq_iff_eq, List.mem_cons, List.not_mem_nil, or_false]
  tauto

theorem slash_not_valid : isValidIdChar '/' = false := by decide

theorem validateResourceId_eq_ok {id : String} : validateResourceId id = .ok () ↔ ValidId id := by
  unfold validateResourceId
  by_cases hlen : minIdLen ≤ id.length ∧ id.length ≤ maxIdLen
  · rw [if_neg (not_not.mpr hlen)]
    cases hid : id.toList with
    | nil => exact ⟨fun h => (by cases h), fun h => by
        obtain ⟨c, rest, hc, _⟩ := h.first
        rw [hid] at hc
        cases hc⟩
    | cons first rest =>
      simp only [← hid]
      by_cases hfirst : isAsciiAlphabetic first = true
      · rw [if_neg (not_not.mpr hfirst)]
        by_cases hchars : id.toList.all isValidIdChar = true
        · rw [if_neg (not_not.mpr hchars)]
          by_cases hgoog : startsWith id forbiddenIdPrefix = true
          · rw [if_pos hgoog]
            exact ⟨fun h => (by cases h), fun h =>
              absurd (List.isPrefixOf_iff_prefix.mp hgoog) h.notGoog⟩
          · rw [if_neg hgoog]
            refine iff_of_true rfl ⟨hlen, fun c hc => ?_, ?_, fun hpre => ?_⟩
            · exact isValidIdChar_iff.mp (List.all_eq_true.mp hchars c hc)
            · exact ⟨first, rest, hid, isAsciiAlphabetic_iff.mp hfirst⟩
            · exact hgoog (List.isPrefixOf_iff_prefix.mpr hpre)
        · rw [if_pos hchars]
          refine ⟨fun h => (by cases h), fun h => absurd (List.all_eq_true.mpr fun c hc => ?_) hchars⟩
          exact isValidIdChar_iff.mpr (h.chars c hc)
      · rw [if_pos hfirst]
        refine ⟨fun h => (by cases h), fun h => ?_⟩
        obtain ⟨c, rest', hc, halpha⟩ := h.first
        rw [hid, List.cons.injEq] at hc
        exact absurd (isAsciiAlphabetic_iff.mpr (hc.1 ▸ halpha)) hfirst
  · rw [if_pos hlen]
    exact ⟨fun h => (by cases h), fun h => absurd h.length hlen⟩

theorem ValidId.no_slash {id : String} (h : ValidId id) : '/' ∉ id.toList := by
  intro hmem
  have hvalid := isValidIdChar_iff.mpr (h.chars '/' hmem)
  rw [slash_not_valid] at hvalid
  cases hvalid

theorem toList_fullNameOf (kind project id : String) : (fullNameOf kind project id).toList =
    "projects".toList ++ '/' :: (project.toList ++ '/' :: (kind.toList ++ '/' :: id.toList)) := by
  simp [fullNameOf, String.toList_append]

theorem splitOn_fullNameOf {kind project id : String} (hkind : '/' ∉ kind.toList)
    (hproject : '/' ∉ project.toList) (hid : '/' ∉ id.toList) :
    (fullNameOf kind project id).toList.splitOn '/' =
      ["projects".toList, project.toList, kind.toList, id.toList] :=
  splitOn_eq_four_iff.mpr ⟨toList_fullNameOf kind project id, by decide, hproject, hkind, hid⟩

theorem splitFullName_fullNameOf {kind project id : String} (hkind : '/' ∉ kind.toList)
    (hproject : '/' ∉ project.toList) : splitFullName (fullNameOf kind project id) = (project, id) := by
  have hparts : splitN '/' 4 (fullNameOf kind project id).toList =
      ["projects".toList, project.toList, kind.toList, id.toList] := by
    rw [toList_fullNameOf, splitN_append (by decide), splitN_append hproject, splitN_append hkind]
    rfl
  simp [splitFullName, hparts]

theorem parseFullName_eq_ok {fullName kind id : String} (hkind : '/' ∉ kind.toList) :
    parseFullName fullName kind = .ok id ↔ ∃ project, fullName = fullNameOf kind project id ∧
      project ≠ "" ∧ '/' ∉ project.toList ∧ '/' ∉ id.toList := by
  constructor
  · intro h
    unfold parseFullName at h
    split at h
    case h_2 => cases h
    case h_1 p0 p1 p2 p3 hsplit =>
      split_ifs at h with hshape hempty
      rw [Except.ok.injEq] at h
      rw [not_or, not_not, not_not] at hshape
      obtain ⟨hname, _, hproject, _, hid⟩ := splitOn_eq_four_iff.mp hsplit
      refine ⟨String.ofList p1, ?_, ?_, ?_, ?_⟩
      · rw [← String.toList_inj, toList_fullNameOf, hname, ← h, ← hshape.1, ← hshape.2]
        simp only [String.toList_ofList]
      · intro he
        have hnil := congrArg String.toList he
        rw [String.toList_ofList] at hnil
        rw [hnil] at hempty
        exact hempty rfl
      · rw [String.toList_ofList]
        exact hproject
      · rw [← h, String.toList_ofList]
        exact hid
  · rintro ⟨project, rfl, hne, hproject, hid⟩
    have hpos : project.toList.isEmpty = false := by
      rw [Bool.eq_false_iff]
      intro he
      refine hne (String.toList_inj.mp ?_)
      rw [List.isEmpty_iff.mp he]
      rfl
    unfold parseFullName
    rw [splitOn_fullNameOf hkind hproject hid]
    simp [hpos]

theorem checkName_eq_ok {fullName kind : String} (hkind : '/' ∉ kind.toList) :
    checkName kind fullName = .ok () ↔ NameShape kind fullName := by
  have hbind : checkName kind fullName = .ok () ↔
      ∃ id, parseFullName fullName kind = .ok id ∧ validateResourceId id = .ok () := by
    unfold checkName
    cases parseFullName fullName kind with
    | error e => exact ⟨fun h => (by cases h), fun ⟨_, h, _⟩ => (by cases h)⟩
    | ok id => exact ⟨fun h => ⟨id, rfl, h⟩, fun ⟨_, h, hv⟩ => by cases h; exact hv⟩
  rw [hbind]
  constructor
  · rintro ⟨id, hparse, hvalid⟩
    obtain ⟨project, hname, hne, hproject, _⟩ := (parseFullName_eq_ok hkind).mp hparse
    exact ⟨project, id, hname, hne, hproject, validateResourceId_eq_ok.mp hvalid⟩
  · rintro ⟨project, id, hname, hne, hproject, hvalid⟩
    exact ⟨id, (parseFullName_eq_ok hkind).mpr ⟨project, hname, hne, hproject, hvalid.no_slash⟩,
      validateResourceId_eq_ok.mpr hvalid⟩

theorem ResourceName.parse_eq_ok {kind fullName : String} :
    (∃ n, ResourceName.parse kind fullName = .ok n ∧ n.fullName = fullName) ↔
      checkName kind fullName = .ok () := by
  unfold ResourceName.parse
  split
  case h_1 h => exact ⟨fun _ => h, fun _ => ⟨_, rfl, rfl⟩⟩
  case h_2 e h =>
    rw [h]
    exact ⟨fun ⟨_, hn, _⟩ => (by cases hn), fun hn => (by cases hn)⟩

theorem ResourceName.parse_eq_error {kind fullName : String} {e : Error} :
    ResourceName.parse kind fullName = .error e ↔ checkName kind fullName = .error e := by
  unfold ResourceName.parse
  split
  case h_1 h => exact ⟨fun hn => (by cases hn), fun hn => (by rw [h] at hn; cases hn)⟩
  case h_2 e' h =>
    rw [h]
    exact ⟨fun hn => (by cases hn; rfl), fun hn => (by cases hn; rfl)⟩

theorem checkName_eq_error {kind fullName : String} {e : Error}
    (h : checkName kind fullName = .error e) : ∃ message, e = .invalidArgument "name" message := by
  unfold checkName at h
  cases hp : parseFullName fullName kind with
  | error e' =>
    rw [hp] at h
    cases h
    unfold parseFullName at hp
    split at hp
    · split_ifs at hp <;> exact ⟨_, (Except.error.inj hp).symm⟩
    · exact ⟨_, (Except.error.inj hp).symm⟩
  | ok id =>
    rw [hp] at h
    change validateResourceId id = .error e at h
    unfold validateResourceId at h
    by_cases hlen : minIdLen ≤ id.length ∧ id.length ≤ maxIdLen
    · rw [if_neg (not_not.mpr hlen)] at h
      split at h
      · exact ⟨_, (Except.error.inj h).symm⟩
      · split_ifs at h <;> exact ⟨_, (Except.error.inj h).symm⟩
    · rw [if_pos hlen] at h
      exact ⟨_, (Except.error.inj h).symm⟩

theorem TopicName.parse_eq_ok {fullName : String} :
    (∃ n, TopicName.parse fullName = .ok n ∧ n.fullName = fullName) ↔
      fullName = deletedTopic ∨ checkName "topics" fullName = .ok () := by
  unfold TopicName.parse
  split_ifs with hs
  · exact ⟨fun _ => Or.inl hs, fun _ => ⟨_, rfl, rfl⟩⟩
  · rw [or_iff_right hs]
    split
    case h_1 h => exact ⟨fun _ => h, fun _ => ⟨_, rfl, rfl⟩⟩
    case h_2 e h =>
      rw [h]
      exact ⟨fun ⟨_, hn, _⟩ => (by cases hn), fun hn => (by cases hn)⟩

theorem NameShape.rejoin {kind fullName : String} (hkind : '/' ∉ kind.toList)
    (h : NameShape kind fullName) :
    fullNameOf kind (splitFullName fullName).1 (splitFullName fullName).2 = fullName ∧
      (splitFullName fullName).1 ≠ "" := by
  obtain ⟨project, id, rfl, hne, hproject, _⟩ := h
  rw [splitFullName_fullNameOf hkind hproject]
  exact ⟨rfl, hne⟩

theorem ResourceName.rejoin {kind : String} (hkind : '/' ∉ kind.toList) (n : ResourceName kind) :
    fullNameOf kind n.projectId n.resourceId = n.fullName :=
  (((checkName_eq_ok hkind).mp n.valid).rejoin hkind).1

theorem ResourceName.eq_iff {kind : String} (hkind : '/' ∉ kind.toList) {n n' : ResourceName kind} :
    n = n' ↔ n.projectId = n'.projectId ∧ n.resourceId = n'.resourceId := by
  constructor
  · rintro rfl
    exact ⟨rfl, rfl⟩
  · rintro ⟨hproject, hid⟩
    have hname : n.fullName = n'.fullName := by
      rw [← n.rejoin hkind, ← n'.rejoin hkind, hproject, hid]
    obtain ⟨s, h⟩ := n
    obtain ⟨s', h'⟩ := n'
    subst hname
    rfl

section Topics

variable {n n' : TopicName}

theorem topics_no_slash : '/' ∉ "topics".toList := by decide

theorem TopicName.rejoin (h : n.isDeletedSentinel = false) :
    fullNameOf "topics" n.projectId n.resourceId = n.fullName ∧ n.projectId ≠ "" := by
  have hs : n.fullName ≠ deletedTopic := by
    simpa [TopicName.isDeletedSentinel] using h
  have hshape := (checkName_eq_ok topics_no_slash).mp (n.valid.resolve_left hs)
  simp only [TopicName.projectId, TopicName.resourceId, h, Bool.false_eq_true, if_false]
  exact hshape.rejoin topics_no_slash

theorem TopicName.projectId_sentinel (h : n.isDeletedSentinel = true) : n.projectId = "" := by
  rw [TopicName.projectId, if_pos h]

theorem TopicName.eq_iff : n = n' ↔ n.projectId = n'.projectId ∧ n.resourceId = n'.resourceId := by
  constructor
  · rintro rfl
    exact ⟨rfl, rfl⟩
  · rintro ⟨hproject, hid⟩
    have hname : n.fullName = n'.fullName := by
      cases hs : n.isDeletedSentinel with
      | true =>
        cases hs' : n'.isDeletedSentinel with
        | true =>
          simp only [TopicName.isDeletedSentinel, beq_iff_eq] at hs hs'
          rw [hs, hs']
        | false =>
          rw [projectId_sentinel hs] at hproject
          exact absurd hproject.symm (TopicName.rejoin hs').2
      | false =>
        cases hs' : n'.isDeletedSentinel with
        | true =>
          rw [projectId_sentinel hs'] at hproject
          exact absurd hproject (TopicName.rejoin hs).2
        | false => rw [← (TopicName.rejoin hs).1, ← (TopicName.rejoin hs').1, hproject, hid]
    obtain ⟨s, h⟩ := n
    obtain ⟨s', h'⟩ := n'
    subst hname
    rfl

end Topics

/-- What the three parsers accept, and that a name is made of its project and its id. -/
theorem names_parsed_exactly :
    (∀ kind ∈ ["subscriptions", "snapshots"],
      (∀ s, (∃ n, ResourceName.parse kind s = .ok n ∧ n.fullName = s) ↔ NameShape kind s) ∧
      (∀ n : ResourceName kind, fullNameOf kind n.projectId n.resourceId = n.fullName) ∧
      ∀ n n' : ResourceName kind,
        n = n' ↔ n.projectId = n'.projectId ∧ n.resourceId = n'.resourceId) ∧
    (∀ s, (∃ n, TopicName.parse s = .ok n ∧ n.fullName = s) ↔
      s = deletedTopic ∨ NameShape "topics" s) ∧
    (∀ n : TopicName, n.isDeletedSentinel = false →
      fullNameOf "topics" n.projectId n.resourceId = n.fullName) ∧
    ∀ n n' : TopicName, n = n' ↔ n.projectId = n'.projectId ∧ n.resourceId = n'.resourceId := by
  have hkinds : ∀ kind ∈ ["subscriptions", "snapshots"], '/' ∉ kind.toList := by decide
  refine ⟨fun kind hmem => ?_, fun s => ?_, fun n h => (TopicName.rejoin h).1,
    fun _ _ => TopicName.eq_iff⟩
  · have hkind := hkinds kind hmem
    refine ⟨fun s => ?_, fun n => n.rejoin hkind, fun _ _ => ResourceName.eq_iff hkind⟩
    rw [ResourceName.parse_eq_ok, checkName_eq_ok hkind]
  · rw [TopicName.parse_eq_ok, checkName_eq_ok topics_no_slash]

theorem names_parsed_exactly_at : NameShape "subscriptions" "projects/p/subscriptions/abc" ∧
    TopicName.projectId ⟨"projects/p/topics/abc", Or.inr rfl⟩ = "p" ∧
    fullNameOf "topics" (TopicName.projectId ⟨"projects/p/topics/abc", Or.inr rfl⟩)
      (TopicName.resourceId ⟨"projects/p/topics/abc", Or.inr rfl⟩) = "projects/p/topics/abc" :=
  ⟨((names_parsed_exactly.1 "subscriptions" (by decide)).1 _).mp ⟨⟨_, rfl⟩, rfl, rfl⟩, by decide,
    names_parsed_exactly.2.2.1 ⟨"projects/p/topics/abc", Or.inr rfl⟩ (by decide)⟩

end OpenPubusb
