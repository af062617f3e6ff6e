import Mathlib.Data.List.Sort
import Mathlib.Logic.Function.Basic
import OpenPubusb.Bytes
import OpenPubusb.Kv

/-! The keys of the rows as bytes. In every keyspace of pairs of ids the order of the bytes
is the order of the pairs, so a scan of an id's prefix gives its rows by number; in the
`meta` keyspace no two rows have one key. -/

namespace OpenPubusb

namespace Keys

inductive NameKind where
  | topic
  | subscription
  | snapshot
  deriving DecidableEq

/-- A byte string literal of the source. -/
def ascii (s : String) : List UInt8 := s.toList.map Char.toUInt8

def toBeBytes (n : UInt64) : List UInt8 := Bytes.toBe64 n.toNat

def fromBeBytes (bs : List UInt8) : UInt64 := UInt64.ofNat (Bytes.fromBe bs)

def asBytes (name : String) : List UInt8 := name.toByteArray.data.toList

def namePrefix : NameKind → List UInt8
  | .topic => ascii "name/t/"
  | .subscription => ascii "name/s/"
  | .snapshot => ascii "name/snap/"

def topicKey (topicId : UInt64) : List UInt8 := ascii "t/" ++ toBeBytes topicId

def subKey (subId : UInt64) : List UInt8 := ascii "s/" ++ toBeBytes subId

def snapshotKey (snapId : UInt64) : List UInt8 := ascii "snap/" ++ toBeBytes snapId

def nameKey (kind : NameKind) (name : String) : List UInt8 := namePrefix kind ++ asBytes name

def idSeqKey : List UInt8 := ascii "id_seq"

def topicSeqCounterKey (topicId : UInt64) : List UInt8 := ascii "t/seq/" ++ toBeBytes topicId

def formatVersionKey : List UInt8 := ascii "__open_pubusb_format_version"

def pairKey (a b : UInt64) : List UInt8 := toBeBytes a ++ toBeBytes b

def parsePairKey (key : List UInt8) : Option (UInt64 × UInt64) :=
  if key.length ≠ 16 then none
  else some (fromBeBytes (key.take 8), fromBeBytes ((key.drop 8).take 8))

def msgKey (topicId seq : UInt64) : List UInt8 := pairKey topicId seq

def msgKeyPrefix (topicId : UInt64) : List UInt8 := toBeBytes topicId

def parseMsgKey (key : List UInt8) : Option (UInt64 × UInt64) := parsePairKey key

def deliveryKey (subId seq : UInt64) : List UInt8 := pairKey subId seq

def deliveryKeyPrefix (subId : UInt64) : List UInt8 := toBeBytes subId

def parseDeliveryKey (key : List UInt8) : Option (UInt64 × UInt64) := parsePairKey key

def topicSubIdxKey (topicId subId : UInt64) : List UInt8 := pairKey topicId subId

def topicSubIdxPrefix (topicId : UInt64) : List UInt8 := toBeBytes topicId

section Pairs

variable {a b a' b' n : UInt64}

theorem fromBeBytes_toBeBytes (n : UInt64) : fromBeBytes (toBeBytes n) = n := by
  rw [fromBeBytes, toBeBytes, Bytes.fromBe_toBe64, Nat.mod_eq_of_lt n.toNat_lt, UInt64.ofNat_toNat]

theorem toBeBytes_fromBeBytes {bs : List UInt8} (h : bs.length = 8) :
    toBeBytes (fromBeBytes bs) = bs := by
  have hlt : Bytes.fromBe bs < 2 ^ 64 := by
    have hbound := Bytes.fromBe_lt bs
    rw [h] at hbound
    exact hbound.trans_le (by decide)
  rw [toBeBytes, fromBeBytes, UInt64.toNat_ofNat', Nat.mod_eq_of_lt hlt, Bytes.toBe64_fromBe h]

theorem toBeBytes_inj : toBeBytes a = toBeBytes b ↔ a = b :=
  ⟨fun h => by rw [← fromBeBytes_toBeBytes a, h, fromBeBytes_toBeBytes], fun h => by rw [h]⟩

theorem toBeBytes_lt_iff : toBeBytes a < toBeBytes b ↔ a < b :=
  (Bytes.toBe64_lt_iff a.toNat_lt b.toNat_lt).trans UInt64.lt_iff_toNat_lt.symm

theorem pairKey_inj : pairKey a b = pairKey a' b' ↔ a = a' ∧ b = b' := by
  constructor
  · intro h
    obtain ⟨ha, hb⟩ := List.append_inj h rfl
    exact ⟨toBeBytes_inj.mp ha, toBeBytes_inj.mp hb⟩
  · rintro ⟨rfl, rfl⟩
    rfl

theorem pairKey_lt_iff : pairKey a b < pairKey a' b' ↔ a < a' ∨ a = a' ∧ b < b' := by
  have hlen : (toBeBytes a).length = (toBeBytes a').length := rfl
  unfold pairKey
  rw [Bytes.append_lt_append_iff hlen, toBeBytes_lt_iff, toBeBytes_inj, toBeBytes_lt_iff]

theorem prefix_pairKey_iff : toBeBytes n <+: pairKey a b ↔ n = a := by
  constructor
  · rintro ⟨rest, h⟩
    exact toBeBytes_inj.mp (List.append_inj_left h rfl)
  · rintro rfl
    exact List.prefix_append ..

theorem parsePairKey_eq_some {key : List UInt8} :
    parsePairKey key = some (a, b) ↔ key = pairKey a b := by
  unfold parsePairKey
  constructor
  · intro h
    split_ifs at h with hlen
    obtain ⟨ha, hb⟩ := Prod.ext_iff.mp (Option.some.inj h)
    have htake : (key.take 8).length = 8 := by
      rw [List.length_take]
      omega
    have hdrop : (key.drop 8).length = 8 := by
      rw [List.length_drop]
      omega
    have hrest : (key.drop 8).take 8 = key.drop 8 := List.take_of_length_le hdrop.le
    rw [hrest] at hb
    simp only at ha hb
    rw [pairKey, ← ha, ← hb, toBeBytes_fromBeBytes htake, toBeBytes_fromBeBytes hdrop,
      List.take_append_drop]
  · rintro rfl
    have hlen : (pairKey a b).length = 16 := rfl
    have hfirst : (pairKey a b).take 8 = toBeBytes a := rfl
    have hsecond : ((pairKey a b).drop 8).take 8 = toBeBytes b := rfl
    rw [if_neg (not_not.mpr hlen), hfirst, hsecond, fromBeBytes_toBeBytes, fromBeBytes_toBeBytes]

end Pairs

/-- The rows of the `meta` keyspace. -/
inductive MetaRow where
  | topic (id : UInt64)
  | sub (id : UInt64)
  | snapshot (id : UInt64)
  | name (kind : NameKind) (name : String)
  | idSeq
  | topicSeq (topicId : UInt64)
  | formatVersion
  deriving DecidableEq

def MetaRow.key : MetaRow → List UInt8
  | .topic id => topicKey id
  | .sub id => subKey id
  | .snapshot id => snapshotKey id
  | .name kind n => nameKey kind n
  | .idSeq => idSeqKey
  | .topicSeq topicId => topicSeqCounterKey topicId
  | .formatVersion => formatVersionKey

def MetaRow.lead : MetaRow → List UInt8
  | .topic _ => [116, 47]
  | .sub _ => [115, 47]
  | .snapshot _ => [115, 110]
  | .name _ _ => [110, 97]
  | .idSeq => [105, 100]
  | .topicSeq _ => [116, 47]
  | .formatVersion => [95, 95]

theorem MetaRow.take_key (r : MetaRow) : r.key.take 2 = r.lead := by
  cases r with
  | name kind n => cases kind <;> rfl
  | _ => rfl

def NameKind.lead : NameKind → List UInt8
  | .topic => [110, 97, 109, 101, 47, 116, 47]
  | .subscription => [110, 97, 109, 101, 47, 115, 47]
  | .snapshot => [110, 97, 109, 101, 47, 115, 110]

theorem take_nameKey (kind : NameKind) (n : String) : (nameKey kind n).take 7 = kind.lead := by
  cases kind <;> rfl

theorem asBytes_inj {n n' : String} : asBytes n = asBytes n' ↔ n = n' := by
  unfold asBytes
  rw [Array.toList_inj, ← String.toByteArray_inj]
  exact ⟨fun h => ByteArray.ext h, fun h => by rw [h]⟩

theorem nameKey_inj {kind kind' : NameKind} {n n' : String} :
    nameKey kind n = nameKey kind' n' ↔ kind = kind' ∧ n = n' := by
  constructor
  · intro h
    have hlead : kind.lead = kind'.lead := by rw [← take_nameKey kind n, h, take_nameKey]
    have hkind : kind = kind' := by
      revert hlead
      cases kind <;> cases kind' <;> decide
    subst hkind
    exact ⟨rfl, asBytes_inj.mp (List.append_cancel_left h)⟩
  · rintro ⟨rfl, rfl⟩
    rfl

/-- No two rows have one key: a topic and the counter of a topic, which both start with
`t/`, have keys of different lengths. -/
theorem MetaRow.key_injective : Function.Injective MetaRow.key := by
  intro r r' h
  have hlead : r.lead = r'.lead := by rw [← r.take_key, h, r'.take_key]
  have hlen : r.key.length = r'.key.length := by rw [h]
  cases r <;> cases r' <;> simp only [MetaRow.lead] at hlead <;>
    try exact absurd hlead (by decide)
  case topic.topic id id' =>
    exact congrArg MetaRow.topic (toBeBytes_inj.mp (List.append_cancel_left h))
  case topic.topicSeq =>
    have hne : 10 = 14 := hlen
    omega
  case sub.sub id id' =>
    exact congrArg MetaRow.sub (toBeBytes_inj.mp (List.append_cancel_left h))
  case snapshot.snapshot id id' =>
    exact congrArg MetaRow.snapshot (toBeBytes_inj.mp (List.append_cancel_left h))
  case name.name kind n kind' n' =>
    obtain ⟨hkind, hname⟩ := nameKey_inj.mp h
    rw [hkind, hname]
  case idSeq.idSeq => rfl
  case topicSeq.topic =>
    have hne : 14 = 10 := hlen
    omega
  case topicSeq.topicSeq id id' =>
    exact congrArg MetaRow.topicSeq (toBeBytes_inj.mp (List.append_cancel_left h))
  case formatVersion.formatVersion => rfl

theorem MetaRow.sub_of_prefix {r : MetaRow} (h : ascii "s/" <+: r.key) : ∃ id, r = .sub id := by
  have hlead : r.lead = ascii "s/" := by
    rw [← r.take_key]
    exact (List.prefix_iff_eq_take.mp h).symm
  cases r with
  | sub id => exact ⟨id, rfl⟩
  | _ =>
    simp only [MetaRow.lead] at hlead
    exact absurd hlead (by decide)

end Keys

/-- The in-memory store: rows in no order, one for each key. -/
structure MemKv where
  rows : List ((String × List UInt8) × List UInt8)
  nodup : (rows.map Prod.fst).Nodup

namespace MemKv

def scanPrefix (kv : MemKv) (keyspace : String) (start : List UInt8) :
    List (List UInt8 × List UInt8) :=
  ((kv.rows.filter (fun row => row.1.1 = keyspace ∧ start.isPrefixOf row.1.2)).map
    (fun row => (row.1.2, row.2))).insertionSort (fun a b => a.1 ≤ b.1)

end MemKv

/-- What a store gives for a prefix scan: the rows with the prefix, in byte order. -/
structure IsPrefixScan (rows : List ((String × List UInt8) × List UInt8)) (keyspace : String)
    (start : List UInt8) (result : List (List UInt8 × List UInt8)) : Prop where
  sorted : result.Pairwise (fun a b => a.1 < b.1)
  mem : ∀ {k v}, (k, v) ∈ result ↔ ((keyspace, k), v) ∈ rows ∧ start <+: k

section Scans

variable {keyspace : String} {start : List UInt8} {result : List (List UInt8 × List UInt8)}

theorem nodup_filterMap_keys {rows : List ((String × List UInt8) × List UInt8)}
    (h : (rows.map Prod.fst).Nodup) (keyspace : String) (start : List UInt8) :
    (((rows.filter (fun row => row.1.1 = keyspace ∧ start.isPrefixOf row.1.2)).map
      (fun row => (row.1.2, row.2))).map Prod.fst).Nodup := by
  rw [List.Nodup, List.pairwise_map] at h
  rw [List.map_map, List.Nodup, List.pairwise_map]
  refine (h.filter _).imp_of_mem fun {a b} ha hb hne heq => hne ?_
  have ha := (List.mem_filter.mp ha).2
  have hb := (List.mem_filter.mp hb).2
  simp only [decide_eq_true_eq] at ha hb
  exact Prod.ext (ha.1.trans hb.1.symm) heq

theorem isPrefixScan_scanPrefix (kv : MemKv) (keyspace : String) (start : List UInt8) :
    IsPrefixScan kv.rows keyspace start (kv.scanPrefix keyspace start) := by
  have hnodup := nodup_filterMap_keys kv.nodup keyspace start
  refine ⟨?_, ?_⟩
  · have : Std.Total (fun a b : List UInt8 × List UInt8 => a.1 ≤ b.1) :=
      ⟨fun a b => List.le_total a.1 b.1⟩
    have : IsTrans (List UInt8 × List UInt8) (fun a b => a.1 ≤ b.1) :=
      ⟨fun a b c hab hbc => List.le_trans hab hbc⟩
    have hsorted := List.pairwise_insertionSort (fun a b : List UInt8 × List UInt8 => a.1 ≤ b.1)
      ((kv.rows.filter (fun row => row.1.1 = keyspace ∧ start.isPrefixOf row.1.2)).map
        (fun row => (row.1.2, row.2)))
    have hkeys := ((List.perm_insertionSort (fun a b : List UInt8 × List UInt8 => a.1 ≤ b.1)
      ((kv.rows.filter (fun row => row.1.1 = keyspace ∧ start.isPrefixOf row.1.2)).map
        (fun row => (row.1.2, row.2)))).map Prod.fst).nodup_iff.mpr hnodup
    rw [List.Nodup, List.pairwise_map] at hkeys
    exact (hsorted.and hkeys).imp fun h => Std.lt_of_le_of_ne h.1 h.2
  · intro k v
    unfold MemKv.scanPrefix
    rw [List.mem_insertionSort, List.mem_map]
    constructor
    · rintro ⟨row, hrow, hkv⟩
      obtain ⟨hin, hmatch⟩ := List.mem_filter.mp hrow
      simp only [decide_eq_true_eq, List.isPrefixOf_iff_prefix] at hmatch
      obtain ⟨rfl, rfl⟩ := Prod.mk.injEq .. ▸ hkv
      rw [← hmatch.1]
      exact ⟨hin, hmatch.2⟩
    · rintro ⟨hin, hstart⟩
      refine ⟨((keyspace, k), v), List.mem_filter.mpr ⟨hin, ?_⟩, rfl⟩
      simpa using hstart

/-- The scan of an id's prefix, in a keyspace of pairs: the rows of the id, by number. -/
theorem IsPrefixScan.pairs {rows : List ((String × List UInt8) × List UInt8)} {id : UInt64}
    (h : IsPrefixScan rows keyspace (Keys.toBeBytes id) result)
    (hkeys : ∀ row ∈ rows, row.1.1 = keyspace → ∃ a b, row.1.2 = Keys.pairKey a b) :
    ∃ found : List (UInt64 × List UInt8),
      result = found.map (fun row => (Keys.pairKey id row.1, row.2)) ∧
      found.Pairwise (fun row row' => row.1 < row'.1) ∧
      ∀ b v, (b, v) ∈ found ↔ ((keyspace, Keys.pairKey id b), v) ∈ rows := by
  have hid : ∀ row ∈ result, ∃ b, row.1 = Keys.pairKey id b := by
    rintro ⟨k, v⟩ hrow
    obtain ⟨hin, hstart⟩ := h.mem.mp hrow
    obtain ⟨a, b, hk⟩ := hkeys _ hin rfl
    simp only at hk
    rw [hk, Keys.prefix_pairKey_iff] at hstart
    exact ⟨b, by rw [hk, hstart]⟩
  have hsecond : ∀ b, Keys.fromBeBytes ((Keys.pairKey id b).drop 8) = b :=
    fun b => Keys.fromBeBytes_toBeBytes b
  have hrow : ∀ row ∈ result, row = (Keys.pairKey id (Keys.fromBeBytes (row.1.drop 8)), row.2) := by
    intro row hrow
    obtain ⟨b, hb⟩ := hid row hrow
    rw [hb, hsecond, ← hb]
  refine ⟨result.map (fun row => (Keys.fromBeBytes (row.1.drop 8), row.2)), ?_, ?_, ?_⟩
  · rw [List.map_map]
    conv_lhs => rw [← List.map_id result]
    exact List.map_congr_left hrow
  · refine List.pairwise_map.mpr (h.sorted.imp_of_mem fun {row row'} hr hr' hlt => ?_)
    obtain ⟨b, hb⟩ := hid row hr
    obtain ⟨b', hb'⟩ := hid row' hr'
    rw [hb, hb', Keys.pairKey_lt_iff] at hlt
    rw [hb, hb', hsecond, hsecond]
    exact (hlt.resolve_left (UInt64.lt_irrefl _)).2
  · intro b v
    rw [List.mem_map]
    constructor
    · rintro ⟨row, hin, heq⟩
      rw [← (Prod.mk.inj heq).1, ← (Prod.mk.inj heq).2]
      have hmem := hrow row hin ▸ hin
      exact (h.mem.mp hmem).1
    · intro hin
      refine ⟨(Keys.pairKey id b, v), h.mem.mpr ⟨hin, Keys.prefix_pairKey_iff.mpr rfl⟩, ?_⟩
      rw [hsecond]

theorem IsPrefixScan.subs {rows : List ((String × List UInt8) × List UInt8)}
    (h : IsPrefixScan rows keyspace (Keys.ascii "s/") result)
    (hkeys : ∀ row ∈ rows, row.1.1 = keyspace → ∃ r, row.1.2 = Keys.MetaRow.key r) :
    ∀ k v, (k, v) ∈ result ↔ ∃ id, k = Keys.subKey id ∧ ((keyspace, k), v) ∈ rows := by
  intro k v
  rw [h.mem]
  constructor
  · rintro ⟨hin, hstart⟩
    obtain ⟨r, hr⟩ := hkeys _ hin rfl
    simp only at hr
    rw [hr] at hstart
    obtain ⟨id, rfl⟩ := Keys.MetaRow.sub_of_prefix hstart
    exact ⟨id, hr, hin⟩
  · rintro ⟨id, rfl, hin⟩
    exact ⟨hin, List.prefix_append ..⟩

/-- The rows of the model stand for such rows: a scan of their encodings is the scan of the
model, encoded. -/
theorem IsPrefixScan.encoded {ν : Type} {m : SortedMap RowKey ν} {encode : ν → List UInt8}
    {id : UInt64} (hids : ∀ {k v}, m.get k = some v → k.id < 2 ^ 64 ∧ k.seq < 2 ^ 64)
    (h : IsPrefixScan (m.entries.map fun e =>
      ((keyspace, Keys.pairKey (.ofNat e.1.id) (.ofNat e.1.seq)), encode e.2))
      keyspace (Keys.toBeBytes id) result) :
    result = (scanPrefix m id.toNat).map fun row =>
      (Keys.pairKey id (.ofNat row.1), encode row.2) := by
  have hsorted : ((scanPrefix m id.toNat).map fun row =>
      (Keys.pairKey id (.ofNat row.1), encode row.2)).Pairwise (fun a b => a.1 < b.1) := by
    refine List.pairwise_map.mpr ((scanPrefix_sorted m _).imp_of_mem fun {a b} ha hb hlt => ?_)
    have hseq := (hids (mem_scanPrefix.mp ha)).2
    have hseq' := (hids (mem_scanPrefix.mp hb)).2
    refine Keys.pairKey_lt_iff.mpr (Or.inr ⟨rfl, UInt64.lt_iff_toNat_lt.mpr ?_⟩)
    rwa [UInt64.toNat_ofNat', UInt64.toNat_ofNat', Nat.mod_eq_of_lt hseq, Nat.mod_eq_of_lt hseq']
  have hnodup : ∀ {l : List (List UInt8 × List UInt8)}, l.Pairwise (fun a b => a.1 < b.1) →
      l.Nodup := by
    intro l hl
    refine hl.imp fun {a b} hlt heq => ?_
    rw [heq] at hlt
    exact List.lt_irrefl _ hlt
  have hmem : ∀ row, row ∈ result ↔ row ∈ (scanPrefix m id.toNat).map fun row =>
      (Keys.pairKey id (.ofNat row.1), encode row.2) := by
    rintro ⟨k, v⟩
    rw [h.mem, List.mem_map, List.mem_map]
    constructor
    · rintro ⟨⟨⟨⟨i, q⟩, x⟩, he, heq⟩, hstart⟩
      obtain ⟨hrow, rfl⟩ := Prod.mk.inj heq
      obtain ⟨_, rfl⟩ := Prod.mk.inj hrow
      have hget := SortedMap.mem_entries.mp he
      have hi := (hids hget).1
      rw [Keys.prefix_pairKey_iff] at hstart
      refine ⟨(q, x), mem_scanPrefix.mpr ?_, by rw [hstart]⟩
      rw [hstart, UInt64.toNat_ofNat', Nat.mod_eq_of_lt hi]
      exact hget
    · rintro ⟨⟨q, x⟩, hin, heq⟩
      obtain ⟨rfl, rfl⟩ := Prod.mk.inj heq
      refine ⟨⟨(⟨id.toNat, q⟩, x), SortedMap.mem_entries.mpr (mem_scanPrefix.mp hin), ?_⟩,
        Keys.prefix_pairKey_iff.mpr rfl⟩
      simp only [UInt64.ofNat_toNat]
  exact ((List.perm_ext_iff_of_nodup (hnodup h.sorted) (hnodup hsorted)).mpr hmem).eq_of_pairwise
    (fun _ _ _ _ hlt hlt' => absurd (List.lt_trans hlt hlt') (List.lt_irrefl _)) h.sorted hsorted

end Scans

/-- The keys of pairs are in the order of the pairs and read back, the scan of an id's
prefix gives the rows of the id by number, the keys of `meta` rows are distinct, and the
scan of `s/` gives subscriptions only. -/
theorem keys_faithful :
    (∀ key ∈ [Keys.msgKey, Keys.deliveryKey, Keys.topicSubIdxKey],
      Function.Injective2 key ∧
      ∀ a b a' b', key a b < key a' b' ↔ a < a' ∨ a = a' ∧ b < b') ∧
    (∀ key a b, Keys.parseMsgKey key = some (a, b) ↔ key = Keys.msgKey a b) ∧
    (∀ key a b, Keys.parseDeliveryKey key = some (a, b) ↔ key = Keys.deliveryKey a b) ∧
    (∀ (kv : MemKv) keyspace start,
      IsPrefixScan kv.rows keyspace start (kv.scanPrefix keyspace start)) ∧
    (∀ codec ∈ [(Keys.msgKeyPrefix, Keys.msgKey), (Keys.deliveryKeyPrefix, Keys.deliveryKey),
        (Keys.topicSubIdxPrefix, Keys.topicSubIdxKey)],
      ∀ rows keyspace id result, IsPrefixScan rows keyspace (codec.1 id) result →
      (∀ row ∈ rows, row.1.1 = keyspace → ∃ a b, row.1.2 = codec.2 a b) →
      ∃ found : List (UInt64 × List UInt8),
        result = found.map (fun row => (codec.2 id row.1, row.2)) ∧
        found.Pairwise (fun row row' => row.1 < row'.1) ∧
        ∀ b v, (b, v) ∈ found ↔ ((keyspace, codec.2 id b), v) ∈ rows) ∧
    Function.Injective Keys.MetaRow.key ∧
    ∀ rows keyspace result, IsPrefixScan rows keyspace (Keys.ascii "s/") result →
      (∀ row ∈ rows, row.1.1 = keyspace → ∃ r, row.1.2 = Keys.MetaRow.key r) →
      ∀ k v, (k, v) ∈ result ↔ ∃ id, k = Keys.subKey id ∧ ((keyspace, k), v) ∈ rows := by
  have hpair : Function.Injective2 Keys.pairKey ∧
      ∀ a b a' b', Keys.pairKey a b < Keys.pairKey a' b' ↔ a < a' ∨ a = a' ∧ b < b' :=
    ⟨fun _ _ _ _ h => Keys.pairKey_inj.mp h, fun _ _ _ _ => Keys.pairKey_lt_iff⟩
  refine ⟨fun key hkey => ?_, fun _ _ _ => Keys.parsePairKey_eq_some,
    fun _ _ _ => Keys.parsePairKey_eq_some, isPrefixScan_scanPrefix,
    fun codec hcodec rows keyspace id result hscan hkeys => ?_, Keys.MetaRow.key_injective,
    fun _ _ _ hscan hkeys => hscan.subs hkeys⟩
  · simp only [List.mem_cons, List.not_mem_nil, or_false] at hkey
    rcases hkey with rfl | rfl | rfl <;> exact hpair
  · simp only [List.mem_cons, List.not_mem_nil, or_false] at hcodec
    rcases hcodec with rfl | rfl | rfl <;> exact hscan.pairs hkeys

theorem keys_faithful_scan : ∃ found : List (UInt64 × List UInt8),
    MemKv.scanPrefix ⟨[(("msg", Keys.msgKey 1 256), [7]), (("msg", Keys.msgKey 2 1), []),
      (("msg", Keys.msgKey 1 255), [])], by decide⟩ "msg" (Keys.msgKeyPrefix 1) =
        found.map (fun row => (Keys.msgKey 1 row.1, row.2)) ∧
    (256, [7]) ∈ found ∧ (255, []) ∈ found := by
  obtain ⟨_, _, _, hscans, hpairs, _⟩ := keys_faithful
  obtain ⟨found, heq, _, hmem⟩ := hpairs _ List.mem_cons_self _ _ 1 _ (hscans
    ⟨[(("msg", Keys.msgKey 1 256), [7]), (("msg", Keys.msgKey 2 1), []),
      (("msg", Keys.msgKey 1 255), [])], by decide⟩ "msg" (Keys.msgKeyPrefix 1)) (by
    intro row hrow _
    simp only [List.mem_cons, List.not_mem_nil, or_false] at hrow
    rcases hrow with rfl | rfl | rfl <;> exact ⟨_, _, rfl⟩)
  exact ⟨found, heq, (hmem _ _).mpr (by simp), (hmem _ _).mpr (by simp)⟩

end OpenPubusb
