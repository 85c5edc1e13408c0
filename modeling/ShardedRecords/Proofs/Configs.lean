import ShardedRecords.BucketedTable.Config
import ShardedRecords.PagedArray.Config
import ShardedRecords.Proofs.ConfigText.Fields
import ShardedRecords.Proofs.ConfigText.Json

/-!
# Configurations as texts

Through any text format that keeps to the laws, a configuration is read back from its own text,
and from an object in any JSON spelling it is read by the names of the members. Nothing is read
from a text that is not JSON.
-/
namespace ShardedRecords

open ConfigText

/-! ## Fields -/

namespace BucketedTable.Config

def bucketCountField : RecordField UInt64 := ⟨"num_buckets", .word, some 1024⟩

def encodingField : RecordField Encoding :=
  ⟨"encoding", .choice Encoding.name Encoding.ofName? fun _ _ => Encoding.ofName?_eq_some_iff,
    some .fixed⟩

def fields : UInt64 × Encoding ≃ BucketedTable.Config where
  toFun x := ⟨x.1, x.2⟩
  invFun c := (c.bucketCount, c.encoding)
  left_inv _ := rfl
  right_inv _ := rfl

end BucketedTable.Config

namespace PagedArray.Config

def pageSizeField : RecordField UInt64 := ⟨"page_size", .word, some 1024⟩

/-- A width must be given. -/
def slotWidthField : RecordField UInt64 := ⟨"slot_width", .word, none⟩

def fields : UInt64 × UInt64 ≃ PagedArray.Config where
  toFun x := ⟨x.1, x.2⟩
  invFun c := (c.pageSize, c.slotWidth)
  left_inv _ := rfl
  right_inv _ := rfl

end PagedArray.Config

/-! ## Configurations -/

/-- Every configuration survives its text. An object in any spelling is read if each of its
members is a field, none is given twice, what they give can be read and the width is among
them, and then it is read as the fields it gives with defaults for the others, in any order. What
is read at all is such an object, or an array, in a spelling of JSON. -/
theorem configs_read_by_name (L : TextFormat) (hdata : L.ReadsData) (hfields : L.VisitsFields)
    (hread : L.ReadsJson) (hwrite : L.WritesJson) :
    (∀ c : BucketedTable.Config, BucketedTable.Config.ofText? L (c.toText L) = some c) ∧
    (∀ c : PagedArray.Config, PagedArray.Config.ofText? L (c.toText L) = some c) ∧
    (∀ s ms, SpellsObject s ms → (∀ v, ("encoding", v) ∈ ms → ∃ t, v = .text t) →
      ((∃ c, BucketedTable.Config.ofText? L s = some c) ↔
        Admits ["num_buckets", "encoding"] ms ∧
          BucketedTable.Config.bucketCountField.Readable ms ∧
          BucketedTable.Config.encodingField.Readable ms) ∧
      (∀ c, BucketedTable.Config.ofText? L s = some c ↔
        Admits ["num_buckets", "encoding"] ms ∧
          BucketedTable.Config.bucketCountField.Says ms c.bucketCount ∧
          BucketedTable.Config.encodingField.Says ms c.encoding) ∧
      ∀ s' ms', SpellsObject s' ms' → ms.Perm ms' →
        BucketedTable.Config.ofText? L s' = BucketedTable.Config.ofText? L s) ∧
    (∀ s ms, SpellsObject s ms →
      ((∃ c, PagedArray.Config.ofText? L s = some c) ↔
        Admits ["page_size", "slot_width"] ms ∧
          PagedArray.Config.pageSizeField.Readable ms ∧
          PagedArray.Config.slotWidthField.Readable ms) ∧
      (∀ c, PagedArray.Config.ofText? L s = some c ↔
        Admits ["page_size", "slot_width"] ms ∧
          PagedArray.Config.pageSizeField.Says ms c.pageSize ∧
          PagedArray.Config.slotWidthField.Says ms c.slotWidth) ∧
      ∀ s' ms', SpellsObject s' ms' → ms.Perm ms' →
        PagedArray.Config.ofText? L s' = PagedArray.Config.ofText? L s) ∧
    (∀ s c, BucketedTable.Config.ofText? L s = some c →
      (∃ ms, SpellsObject s ms ∧ Admits ["num_buckets", "encoding"] ms) ∨
        ∃ vs, SpellsArray s vs) ∧
    ∀ s c, PagedArray.Config.ofText? L s = some c →
      (∃ ms, SpellsObject s ms ∧ Admits ["page_size", "slot_width"] ms) ∨
        ∃ vs, SpellsArray s vs := by
  have htable : BucketedTable.Config.recordType.closed = true := rfl
  have harray : PagedArray.Config.recordType.closed = true := rfl
  constructor
  · intro c
    apply (TextFormat.map_read?_eq_some_iff BucketedTable.Config.fields).mpr
    exact TextFormat.read?_write hfields hread htable hdata hwrite _
  constructor
  · intro c
    apply (TextFormat.map_read?_eq_some_iff PagedArray.Config.fields).mpr
    exact TextFormat.read?_write hfields hread harray hdata hwrite _
  constructor
  · intro s ms hs htexts
    exact TextFormat.map_read?_by_name BucketedTable.Config.fields hfields hread htable hdata hs
      (fun _ _ => trivial) htexts
  constructor
  · intro s ms hs
    exact TextFormat.map_read?_by_name PagedArray.Config.fields hfields hread harray hdata hs
      (fun _ _ => trivial) fun _ _ => trivial
  constructor
  · intro s c h
    have hs := (TextFormat.map_read?_eq_some_iff BucketedTable.Config.fields).mp h
    exact TextFormat.admits_of_read? hfields hread htable hs
  · intro s c h
    have hs := (TextFormat.map_read?_eq_some_iff PagedArray.Config.fields).mp h
    exact TextFormat.admits_of_read? hfields hread harray hs

/-- Strict JSON keeps to the laws. An object is read with an escape in a name and its members the
other way round, and one with a field left out. A zero in front of a number or half of a pair
in a text is no JSON, so nothing is read. -/
theorem configs_read_by_name_escaped :
    let escaped := "\x7b \"\\u0065ncoding\" : \"varint\",\n\"num_buckets\":7\x7d"
    let short := "\x7b\"slot_width\":16\x7d"
    let padded := "\x7b\"slot_width\":007\x7d"
    let halved := "\x7b\"encoding\":\"\\ud800\"\x7d"
    let c : BucketedTable.Config := ⟨0xFFFFFFFFFFFFFFFF, .varint⟩
    (TextFormat.json.ReadsData ∧ TextFormat.json.VisitsFields ∧ TextFormat.json.ReadsJson ∧
        TextFormat.json.WritesJson) ∧
      BucketedTable.Config.ofText? .json (c.toText .json) = some c ∧
      BucketedTable.Config.ofText? .json escaped = some ⟨7, .varint⟩ ∧
      PagedArray.Config.ofText? .json short = some ⟨1024, 16⟩ ∧
      (∀ v, ¬Spells padded.toList (.value v)) ∧ PagedArray.Config.ofText? .json padded = none ∧
      (∀ v, ¬Spells halved.toList (.value v)) ∧
      BucketedTable.Config.ofText? .json halved = none := by
  intro escaped short padded halved c
  obtain ⟨htable, -, hobject, hwidth, htableSpelled, harraySpelled⟩ :=
    configs_read_by_name .json TextFormat.json_readsData TextFormat.json_visitsFields
      TextFormat.json_readsJson TextFormat.json_writesJson
  have hescaped : SpellsObject escaped
      [("encoding", .text "varint"), ("num_buckets", .number ['7'])] :=
    spells_of_written _ (written_of_scan? (by decide +kernel))
  have hshort : SpellsObject short [("slot_width", .number ['1', '6'])] :=
    spells_of_written _ (written_of_scan? (by decide +kernel))
  have hpadded : ∀ v, ¬Spells padded.toList (.value v) :=
    Value.ofText?_eq_none_iff.mp (Option.isNone_iff_eq_none.mp (by decide +kernel))
  have hhalved : ∀ v, ¬Spells halved.toList (.value v) :=
    Value.ofText?_eq_none_iff.mp (Option.isNone_iff_eq_none.mp (by decide +kernel))
  refine ⟨⟨TextFormat.json_readsData, TextFormat.json_visitsFields, TextFormat.json_readsJson,
    TextFormat.json_writesJson⟩, htable c, ?_, ?_, hpadded, ?_, hhalved, ?_⟩
  · have honce : ([("encoding", Value.text "varint"),
        ("num_buckets", .number ['7'])].map Prod.fst).Nodup := by
      simp
    apply ((hobject _ _ hescaped (by simp)).2.1 _).mpr
    exact ⟨⟨by simp, honce⟩, .of_mem honce (.tail _ (.head _)), .of_mem honce (.head _)⟩
  · have honce : ([("slot_width", Value.number ['1', '6'])].map Prod.fst).Nodup := by
      simp
    have hsize : PagedArray.Config.pageSizeField.Says
        [("slot_width", .number ['1', '6'])] 1024 :=
      ⟨by simp [PagedArray.Config.pageSizeField], fun _ => rfl⟩
    apply ((hwidth _ _ hshort).2.1 _).mpr
    exact ⟨⟨by simp, honce⟩, hsize, .of_mem honce (.head _)⟩
  · apply Option.eq_none_iff_forall_ne_some.mpr
    intro c hc
    rcases harraySpelled padded c hc with ⟨ms, hms, -⟩ | ⟨vs, hvs⟩
    · exact hpadded _ hms
    · exact hpadded _ hvs
  · apply Option.eq_none_iff_forall_ne_some.mpr
    intro c hc
    rcases htableSpelled halved c hc with ⟨ms, hms, -⟩ | ⟨vs, hvs⟩
    · exact hhalved _ hms
    · exact hhalved _ hvs

end ShardedRecords
