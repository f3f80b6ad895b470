/-
The codec of JSON texts follows the rules of one.
-/
import Formulary.Json.Codec
import Formulary.Proofs.Codec
import Formulary.Proofs.Json.Reading
import Mathlib.Tactic

namespace Formulary.Json

/-! ## Names -/

/-- Behind the first letter, a word is taken as it is. -/
theorem joinWords_append {word : List Char} (h : '_' ∉ word) (rest : List Char) :
    joinWords false (word ++ rest) = word ++ joinWords false rest := by
  induction word with
  | nil => rfl
  | cons c word ih =>
    obtain ⟨hc, hword⟩ := not_or.1 (mt List.mem_cons.2 h)
    simp [joinWords, Ne.symm hc, ih hword]

theorem joinWords_word {word : List Char} (h : IsWord word) (rest : List Char) :
    joinWords true (word ++ rest) = capitalize word ++ joinWords false rest := by
  obtain ⟨hne, hlower⟩ := h
  obtain ⟨c, word, rfl⟩ := List.exists_cons_of_ne_nil hne
  have absent : '_' ∉ c :: word := fun hmem => absurd (hlower _ hmem) (by decide)
  obtain ⟨hc, hword⟩ := not_or.1 (mt List.mem_cons.2 absent)
  simp [joinWords, Ne.symm hc, capitalize, joinWords_append hword]

/-- Words joined by underscores are joined by capitals. -/
theorem joinWords_intercalate {words : List (List Char)} (hne : words ≠ []) (h : ∀ word ∈ words, IsWord word) :
    joinWords true (['_'].intercalate words) = (words.map capitalize).flatten := by
  induction words with
  | nil => exact absurd rfl hne
  | cons word words ih =>
    obtain ⟨hword, hwords⟩ := List.forall_mem_cons.1 h
    cases words with
    | nil =>
      have := joinWords_word hword []
      simpa [joinWords, List.intercalate] using this
    | cons next words =>
      have later := ih (by simp) hwords
      have underscore : ∀ rest, joinWords false ('_' :: rest) = joinWords true rest := fun _ => rfl
      rw [List.intercalate_cons_cons, List.append_assoc, joinWords_word hword, List.singleton_append, underscore, later]
      rfl

/-! ## Writing -/

/-- The text of a field writes a member that fills it. -/
theorem exists_member {field : Field} {datum : Datum} (hkey : Plain (key field.name).toList)
    (hlabel : ∀ names, field.shape = .choice names → ∀ name ∈ names, Plain (label name).toList)
    (h : field.shape.Holds datum) :
    ∃ member, Spells (.member member) (memberText (field, datum)).toList ∧ codec.Fills field datum member := by
  suffices ∃ value, Spells (.value value) (datumText datum).toList ∧ codec.Stands field.shape datum value by
    obtain ⟨value, written, stands⟩ := this
    refine ⟨((key field.name).toList.map .char, value), ?_, denotes_word _, stands⟩
    simpa [memberText] using Spells.bareMember (spellsPieces_word hkey) written
  obtain ⟨name, shape, standard⟩ := field
  cases h with
  | @number bound n hn =>
    have digits : ∀ c ∈ Nat.toDigits 10 n, c.isDigit = true := fun c hc =>
      Nat.isDigit_of_mem_toDigits (by decide) (by decide) hc
    have value := Nat.ofDigitChars_ten_toDigits (n := n)
    refine ⟨.number (Nat.toDigits 10 n), ?_, ?_⟩
    · simpa [datumText, Nat.toString_eq_ofList_toDigits] using Spells.number (whole_toDigits n).isNumber
    · have stands : codec.Stands (.number bound) _ _ := .number digits (by rwa [value])
      rwa [value] at stands
  | @choice names name hname =>
    refine ⟨.string ((label name).toList.map .char), ?_, .choice hname (denotes_word _)⟩
    simpa [datumText] using Spells.string (spellsPieces_word (hlabel names rfl name hname))

theorem exists_members {slots : List (Field × Datum)} (hne : slots ≠ [])
    (h : ∀ slot ∈ slots, ∃ member, Spells (.member member) (memberText slot).toList ∧
      codec.Fills slot.1 slot.2 member) :
    ∃ members, Spells (.members members) (membersText slots).toList ∧
      List.Forall₂ (fun slot member => codec.Fills slot.1 slot.2 member) slots members := by
  induction slots with
  | nil => exact absurd rfl hne
  | cons slot slots ih =>
    obtain ⟨⟨member, written, fills⟩, hslots⟩ := List.forall_mem_cons.1 h
    cases slots with
    | nil => exact ⟨[member], .lastMember written, .cons fills .nil⟩
    | cons next slots =>
      obtain ⟨members, more, filled⟩ := ih (by simp) hslots
      refine ⟨member :: members, ?_, .cons fills filled⟩
      simpa [membersText] using Spells.moreMembers written more

/-! ## Reading -/

theorem ofDigits_eq (digits : List Char) : ofDigits digits = Nat.ofDigitChars 10 digits 0 := by
  rw [Nat.ofDigitChars_eq_foldl]
  simp only [ofDigits, Nat.mul_comm]

/-- A choice is found by its label. -/
theorem choice?_label {names : List String} (h : (names.map label).Nodup) {name : String} (hname : name ∈ names) :
    choice? names (label name).toList = some (.choice name) := by
  induction names with
  | nil => cases hname
  | cons first names ih =>
    obtain ⟨hfirst, hnames⟩ := List.nodup_cons.1 h
    rcases List.mem_cons.1 hname with rfl | hname
    · simp [choice?]
    · have other : (label first).toList ≠ (label name).toList := fun h =>
        hfirst (String.toList_inj.1 h ▸ List.mem_map_of_mem hname)
      rw [choice?, List.find?_cons_of_neg (by simpa using other)]
      exact ih hnames hname

/-- What stands for a datum gives it. -/
theorem datum?_of_stands {shape : Shape} {datum : Datum} {value : Json}
    (hlabels : ∀ names, shape = .choice names → (names.map label).Nodup) (h : codec.Stands shape datum value) :
    datum? shape value = some datum := by
  cases h with
  | number hdigits hlt => simp [datum?, ofDigits_eq, List.all_eq_true.2 hdigits, hlt]
  | @choice names name pieces hname hd =>
    rw [datum?, hd.decode_eq, Option.bind_some]
    exact choice?_label (hlabels names rfl) hname

theorem findIdx?_key {record : List Field} (h : codec.Distinct record) {i : Nat} {field : Field}
    (hi : record[i]? = some field) :
    record.findIdx? (fun other => (key other.name).toList = (key field.name).toList) = some i := by
  obtain ⟨hlt, rfl⟩ := List.getElem?_eq_some_iff.1 hi
  refine List.findIdx?_eq_some_iff_getElem.2 ⟨hlt, by simp, fun j hj => ?_⟩
  have apart : key record[j].name ≠ key record[i].name :=
    List.pairwise_iff_getElem.1 (List.pairwise_map.1 h.keys) j i (by omega) hlt hj
  simpa [String.toList_inj] using apart

/-- A field that no member gives may be given something at once. -/
theorem ofMembers?_set {record : List Field} {i : Nat} {field : Field} (hi : record[i]? = some field) (datum : Datum)
    {members : List (List Piece × Json)}
    (hm : ∀ member ∈ members, ∃ name, Denotes member.1 name ∧ name ≠ (key field.name).toList)
    {given result : List (Option Datum)} (free : given[i]? = some none)
    (h : ofMembers? record given members = some result) :
    ofMembers? record (given.set i (some datum)) members = some (result.set i (some datum)) := by
  induction members generalizing given with
  | nil =>
    cases h
    rfl
  | cons member members ih =>
    obtain ⟨⟨name, hd, hname⟩, hmembers⟩ := List.forall_mem_cons.1 hm
    obtain ⟨pieces, value⟩ := member
    simp only [ofMembers?, hd.decode_eq] at h ⊢
    cases hj : record.findIdx? (fun other => (key other.name).toList = name) with
    | none =>
      simp only [hj] at h ⊢
      exact ih hmembers free h
    | some j =>
      have apart : i ≠ j := by
        rintro rfl
        obtain ⟨hlt, found, -⟩ := List.findIdx?_eq_some_iff_getElem.1 hj
        obtain ⟨_, rfl⟩ := List.getElem?_eq_some_iff.1 hi
        exact hname (by simpa using (of_decide_eq_true found).symm)
      simp only [hj, List.getElem?_set_ne apart] at h ⊢
      split at h
      case h_2 => cases h
      case h_1 other ho hnone =>
        rw [List.set_comm _ _ apart]
        refine ih hmembers ?_ h
        rw [List.getElem?_set_ne (Ne.symm apart), free]

/-- What is given to a field takes the place of its default. -/
theorem orStandard_set (record : List Field) (given : List (Option Datum)) (i : Nat) (datum : Datum) :
    orStandard record (given.set i (some datum)) = (orStandard record given).set i datum := by
  induction given generalizing record i with
  | nil => cases record <;> rfl
  | cons first given ih =>
    cases record with
    | nil => rfl
    | cons field record =>
      cases i with
      | zero => rfl
      | succ i => exact congrArg (_ :: ·) (ih record i)

theorem read?_eq {record : List Field} {text : String} {value : Json} (h : Spells (.element value) text.toList) :
    codec.read? record text = data? record value := by
  have read : ofText? text.toList = some value := ofText?_of_spells h
  simp only [codec, read, Option.bind_some]

/-- The rules hold of it. -/
theorem codec_laws : codec.Laws where
  key_words words hne h := by
    show key _ = _
    rw [key, String.toList_ofList, joinWords_intercalate hne h]
    rfl
  label_words words _ _ := by
    show label _ = _
    rw [label, String.toList_ofList]
    rfl
  write_object {record data} hrecord hdata := by
    have slots : ∀ slot ∈ record.zip data, ∃ member, Spells (.member member) (memberText slot).toList ∧
        codec.Fills slot.1 slot.2 member := fun slot hslot => by
      have field := (List.of_mem_zip hslot).1
      exact exists_member (hrecord.plainKey _ field) (hrecord.plainLabel _ field)
        (List.forall₂_zip hdata hslot)
    show ∃ members, Spells _ ("\x7b" ++ membersText (record.zip data) ++ "\x7d").toList ∧ _
    rcases eq_or_ne (record.zip data) [] with hnil | hne
    · rw [hnil]
      exact ⟨[], .bare (.emptyObject space_nil), .nil⟩
    · obtain ⟨members, written, filled⟩ := exists_members hne slots
      refine ⟨members, ?_, filled⟩
      simpa using Spells.bare (.object written)
  read_empty {record text} h := by
    rw [read?_eq h]
    show some (orStandard record (record.map fun _ => none)) = _
    simp only [orStandard, List.zipWith_map_right, List.zipWith_self, Option.getD_none]
  read_other {record key name value members text rest data} hs hrest hk hname h := by
    have unknown : record.findIdx? (fun field => (Json.key field.name).toList = name) = none :=
      List.findIdx?_eq_none_iff.2 fun field hfield => decide_eq_false (Ne.symm (hname field hfield))
    rw [read?_eq hrest] at h
    rw [read?_eq hs, ← h]
    simp only [data?, ofMembers?, hk.decode_eq, unknown]
  read_field {record i field datum member members text rest data} hrecord hi hs hrest hfills hothers h := by
    obtain ⟨pieces, value⟩ := member
    have mem : field ∈ record := List.mem_of_getElem? hi
    have given : datum? field.shape value = some datum := datum?_of_stands (hrecord.labels field mem) hfills.value
    have free : (record.map fun _ => (none : Option Datum))[i]? = some none := by
      rw [List.getElem?_map, hi, Option.map_some]
    rw [read?_eq hrest, data?, Option.map_eq_some_iff] at h
    obtain ⟨result, hresult, rfl⟩ := h
    have later := ofMembers?_set hi datum hothers free hresult
    have here : record.findIdx? (fun other => (key other.name).toList = (key field.name).toList) = some i :=
      findIdx?_key hrecord hi
    have named : decode pieces = some (Json.key field.name).toList := hfills.key.decode_eq
    rw [read?_eq hs, ← orStandard_set, data?]
    simp only [ofMembers?, named, here, hi, Option.bind_some, given, free, later, Option.map_some]

end Formulary.Json
