import Implementors.Registry.Wire
import Implementors.Proofs.Json.Written

/-! Written descriptors, and lists of them, are taken for what was written. -/
namespace Implementors

open Json

namespace Descriptor

theorem takes_flag (b : Bool) : Reader.boolean.Takes (Layout.boolean b) b := by
  cases b with
  | true => exact Reader.takes_true
  | false => exact Reader.takes_false

variable {layout : Layout}

theorem folds_fields (hl : layout.Plain) (depth : Nat) (d : Descriptor) :
    Layout.Folds layout Draft.member {}
      [("text", quote d.text), ("synthetic", Layout.boolean d.synthetic),
        ("types", layout.list (depth + 1) (fun _ => quote) d.types)]
      ⟨some d.text, some d.synthetic, some d.types⟩ := by
  have htypes : (Reader.list .string).Takes
      (layout.list (depth + 1) (fun _ => quote) d.types) d.types :=
    Layout.takes_list hl (depth + 1) d.types fun t _ => Reader.takes_quote t
  refine .cons (c := ⟨some d.text, none, none⟩) (fun rest => ?_)
    (.cons (c := ⟨some d.text, some d.synthetic, none⟩) (fun rest => ?_)
      (.cons (fun rest => ?_) (.nil _)))
  · simp [Draft.member, Reader.map, Layout.run_afterColon hl (Reader.takes_quote d.text)]
  · simp [Draft.member, Reader.map, Layout.run_afterColon hl (takes_flag d.synthetic)]
  · simp [Draft.member, Reader.map, Layout.run_afterColon hl htypes]

theorem takes_write (hl : layout.Plain) (depth : Nat) (d : Descriptor) :
    reader.Takes (d.write layout depth) d := by
  obtain ⟨text, ht, hm⟩ := Layout.object_eq hl depth (folds_fields hl depth d)
  have hw : d.write layout depth = '{' :: text := ht
  rw [hw]
  refine ⟨⟨_, _, rfl, by decide, by decide⟩, fun blanks rest hb => ?_⟩
  change read _ = _
  rw [read, List.cons_append, skipBlanks_token hb (by decide)]
  simp only [readObject, hm.read rest]
  rfl

theorem ofJson_toJson (d : Descriptor) : ofJson d.toJson = .ok d := by
  rw [ofJson, toJson, String.toList_ofList]
  exact (d.takes_write Layout.plain_compact 0).readAll

end Descriptor

theorem Registry.takes_writeList {layout : Layout} (hl : layout.Plain) (depth : Nat)
    (list : List Descriptor) : listReader.Takes (writeList layout depth list) list :=
  Layout.takes_list hl depth list fun d _ => d.takes_write hl (depth + 1)

end Implementors
