import SpokenKeys.Proofs.WrittenDocuments
import SpokenKeys.Schema.Codec

/-!
Written forms are read. The form of a value describes it, and where no two names of a
declaration are written alike a document describes one value of a type at most. So a
codec that keeps its promises reads back every value it writes.
-/

namespace SpokenKeys

namespace Declaration

variable {declaration : Declaration} {alternative : Alternative} {document : Json}
  {members : List (String × Json)}

theorem shows_of_form (hmem : alternative ∈ declaration.alternatives)
    (h : declaration.form? alternative members = some document) :
    declaration.Shows document alternative members := by
  cases declaration with
  | names alternatives =>
      cases members with
      | nil => exact ⟨hmem, rfl, (Option.some.inj h).symm⟩
      | cons member more => simp [form?] at h
  | tagged tag alternatives =>
      exact ⟨hmem, _, .refl _, (Option.some.inj h).symm⟩
  | record only =>
      exact ⟨by simpa [alternatives] using hmem, _, .refl _, (Option.some.inj h).symm⟩

theorem isWhole_of_form (hmembers : Json.holdWhole members = true)
    (h : declaration.form? alternative members = some document) : document.isWhole = true := by
  cases declaration with
  | names alternatives =>
      cases members with
      | nil =>
          rw [← Option.some.inj h]
          rfl
      | cons member more => simp [form?] at h
  | tagged tag alternatives =>
      rw [← Option.some.inj h, Json.isWhole, Json.holdWhole, hmembers]
      rfl
  | record only =>
      rw [← Option.some.inj h, Json.isWhole, hmembers]

/-- Where no two alternatives are written alike, one is found by what is written for it. -/
theorem find?_written {alternatives : List Alternative}
    (h : (alternatives.map Alternative.written).Nodup) (hmem : alternative ∈ alternatives) :
    alternatives.find? (fun other => other.written == alternative.written) = some alternative := by
  induction alternatives with
  | nil => simp at hmem
  | cons first rest ih =>
      rw [List.map_cons, List.nodup_cons] at h
      rcases List.mem_cons.mp hmem with rfl | hrest
      · simp
      · have hother : first.written ≠ alternative.written := fun heq =>
          h.1 (heq ▸ List.mem_map_of_mem hrest)
        rw [List.find?_cons_of_neg (by simpa using hother)]
        exact ih h.2 hrest

end Declaration

theorem Json.lookup_eq_none {entries : List (String × Json)} {name : String}
    (h : name ∉ entries.map Prod.fst) : Json.lookup name entries = none := by
  induction entries with
  | nil => rfl
  | cons entry rest ih =>
      obtain ⟨first, value⟩ := entry
      rw [List.map_cons, List.mem_cons, not_or] at h
      simp [Json.lookup, ih h.2, Ne.symm h.1]

/-- Where no two members have one name, a member is looked up by its name. -/
theorem Json.lookup_of_mem {entries : List (String × Json)} {name : String} {value : Json}
    (h : (entries.map Prod.fst).Nodup) (hmem : (name, value) ∈ entries) :
    Json.lookup name entries = some value := by
  induction entries with
  | nil => simp at hmem
  | cons entry rest ih =>
      rw [List.map_cons, List.nodup_cons] at h
      rcases List.mem_cons.mp hmem with rfl | hrest
      · simp [Json.lookup, Json.lookup_eq_none h.1]
      · simp [Json.lookup, ih h.2 hrest]

theorem Json.depth_lt_of_mem {entries : List (String × Json)} {name : String} {value : Json}
    (h : (name, value) ∈ entries) : value.depth < (Json.object entries).depth := by
  rw [Json.depth]
  induction entries with
  | nil => simp at h
  | cons entry rest ih =>
      rw [Json.depthMembers]
      rcases List.mem_cons.mp h with rfl | hrest
      · rw [Json.depthMember]
        omega
      · have hvalue := ih hrest
        omega

namespace Declaration

variable {declaration : Declaration} {alternative : Alternative} {document : Json}
  {members : List (String × Json)}

/-- A document of an alternative is found to be of it, and the members of the fields are
among those to look in. -/
theorem exists_shown (hclear : declaration.IsUnambiguous)
    (hnames : members.map Prod.fst = alternative.fields.map Field.name)
    (h : declaration.Shows document alternative members) :
    ∃ entries, declaration.shown? document = some (alternative, entries) ∧
      ∀ member ∈ members, Json.lookup member.1 entries = some member.2 ∧
        member.2.depth < document.depth := by
  cases declaration with
  | names alternatives =>
      obtain ⟨hmem, rfl, rfl⟩ := h
      exact ⟨[], by simp [shown?, Json.text?, find?_written hclear hmem], by simp⟩
  | tagged tag alternatives =>
      obtain ⟨hmem, entries, hperm, rfl⟩ := h
      have hnodup : (entries.map Prod.fst).Nodup := by
        rw [(hperm.map Prod.fst).nodup_iff, List.map_cons, hnames]
        exact hclear.2 alternative hmem
      have htag := Json.lookup_of_mem hnodup (hperm.mem_iff.mpr List.mem_cons_self)
      refine ⟨entries, ?_, fun member hmember => ?_⟩
      · simp [shown?, htag, Json.text?, find?_written hclear.1 hmem]
      · have hentry := hperm.mem_iff.mpr (List.mem_cons_of_mem _ hmember)
        exact ⟨Json.lookup_of_mem hnodup hentry, Json.depth_lt_of_mem hentry⟩
  | record only =>
      obtain ⟨rfl, entries, hperm, rfl⟩ := h
      have hnodup : (entries.map Prod.fst).Nodup := by
        rw [(hperm.map Prod.fst).nodup_iff, hnames]
        exact hclear
      refine ⟨entries, rfl, fun member hmember => ?_⟩
      have hentry := hperm.mem_iff.mpr hmember
      exact ⟨Json.lookup_of_mem hnodup hentry, Json.depth_lt_of_mem hentry⟩

end Declaration

namespace Schema

variable {schema : Schema}

mutual

/-- The form of a value describes it. -/
theorem describes_of_form (content : Content) {type : DataType} {document : Json}
    (h : schema.form? content type = some document) : schema.Describes content type document := by
  match content, type with
  | .text content, .text =>
    rw [form?] at h
    simp [Describes, ← Option.some.inj h]
  | .char value, .char =>
    rw [form?] at h
    simp [Describes, ← Option.some.inj h]
  | .number value, .number =>
    rw [form?] at h
    simp [Describes, ← Option.some.inj h]
  | .flag value, .flag =>
    rw [form?] at h
    simp [Describes, ← Option.some.inj h]
  | .list items, .list item =>
    rw [form?, Option.map_eq_map, Option.map_eq_some_iff] at h
    obtain ⟨documents, hdocuments, rfl⟩ := h
    rw [Describes]
    exact ⟨item, documents, rfl, rfl, describeItems_of_forms items hdocuments⟩
  | .made name contents, .declared declared =>
    simp only [form?, Option.bind_eq_bind, Option.bind_eq_some_iff] at h
    obtain ⟨declaration, hdeclaration, alternative, halternative, members, hmembers, hform⟩ := h
    have hname : alternative.name = name := by simpa using List.find?_some halternative
    have hmem := List.mem_of_find?_eq_some halternative
    rw [Describes]
    refine ⟨declared, declaration, alternative, members, rfl, hdeclaration, ?_, hname,
      describeFields_of_forms contents alternative.fields hmembers⟩
    exact Declaration.shows_of_form hmem hform

theorem describeItems_of_forms (contents : List Content) {type : DataType}
    {documents : List Json} (h : schema.itemForms? contents type = some documents) :
    schema.DescribeItems contents type documents := by
  match contents with
  | [] =>
    rw [itemForms?] at h
    simp [DescribeItems, ← Option.some.inj h]
  | content :: rest =>
    simp only [itemForms?, Option.bind_eq_bind, Option.bind_eq_some_iff] at h
    obtain ⟨document, hdocument, more, hmore, hcons⟩ := h
    rw [DescribeItems]
    exact ⟨document, more, (Option.some.inj hcons).symm, describes_of_form content hdocument,
      describeItems_of_forms rest hmore⟩

theorem describeFields_of_forms (contents : List Content) (fields : List Field)
    {members : List (String × Json)} (h : schema.fieldForms? contents fields = some members) :
    schema.DescribeFields contents fields members := by
  match contents, fields with
  | [], [] =>
    rw [fieldForms?] at h
    simp [DescribeFields, ← Option.some.inj h]
  | content :: contents, field :: fields =>
    simp only [fieldForms?, Option.bind_eq_bind, Option.bind_eq_some_iff] at h
    obtain ⟨document, hdocument, more, hmore, hcons⟩ := h
    rw [DescribeFields]
    exact ⟨field, fields, document, more, rfl, (Option.some.inj hcons).symm,
      describes_of_form content hdocument, describeFields_of_forms contents fields hmore⟩

end

theorem IsUnambiguous.of_lookup (h : schema.IsUnambiguous) {name : String}
    {declaration : Declaration} (hlookup : schema.lookup name = some declaration) :
    declaration.IsUnambiguous := by
  obtain ⟨front, back, rfl, -⟩ := List.lookup_eq_some_iff.mp hlookup
  exact h (name, declaration) (by simp)

/-- The members that describe the fields have the fields' names. -/
theorem names_of_describeFields {contents : List Content} {fields : List Field}
    {members : List (String × Json)} (h : schema.DescribeFields contents fields members) :
    members.map Prod.fst = fields.map Field.name := by
  induction contents generalizing fields members with
  | nil =>
      rw [DescribeFields] at h
      rw [h.1, h.2]
      rfl
  | cons content contents ih =>
      rw [DescribeFields] at h
      obtain ⟨field, otherFields, document, more, rfl, rfl, -, hmore⟩ := h
      rw [List.map_cons, List.map_cons, ih hmore]

mutual

/-- A document that describes a value is read as the value. Its depth is fuel enough. -/
theorem read?_of_describes (hschema : schema.IsUnambiguous) (content : Content)
    {type : DataType} {document : Json} {fuel : Nat}
    (h : schema.Describes content type document) (hfuel : document.depth < fuel) :
    schema.read? fuel type document = some content := by
  obtain ⟨fuel, rfl⟩ : ∃ below, fuel = below + 1 := Nat.exists_eq_succ_of_ne_zero (by omega)
  match content with
  | .text content =>
    obtain ⟨rfl, rfl⟩ := h
    rfl
  | .char value =>
    obtain ⟨rfl, rfl⟩ := h
    simp [read?, Json.char?]
  | .number value =>
    obtain ⟨rfl, rfl⟩ := h
    simp [read?, Json.nat, Json.word?, value.toNat_lt]
  | .flag value =>
    obtain ⟨rfl, rfl⟩ := h
    rfl
  | .list items =>
    rw [Describes] at h
    obtain ⟨item, documents, rfl, rfl, hitems⟩ := h
    rw [Json.depth] at hfuel
    have hread := mapM_read?_of_describeItems hschema items hitems
      (show Json.depthItems documents < fuel by omega)
    simp [read?, Json.list?, hread]
  | .made name contents =>
    rw [Describes] at h
    obtain ⟨declared, declaration, alternative, members, rfl, hdeclaration, hshows, rfl,
      hfields⟩ := h
    have hclear := hschema.of_lookup hdeclaration
    obtain ⟨entries, hshown, hentries⟩ :=
      Declaration.exists_shown hclear (names_of_describeFields hfields) hshows
    have hread := mapM_read?_of_describeFields hschema contents hfields
      (show ∀ member ∈ members, Json.lookup member.1 entries = some member.2 ∧
        member.2.depth < fuel from fun member hmember =>
          ⟨(hentries member hmember).1, by have := (hentries member hmember).2; omega⟩)
    simp only [read?, hdeclaration, hshown, Option.bind_eq_bind, Option.bind_some]
    simp only [Option.bind_eq_bind] at hread
    rw [hread]
    rfl

theorem mapM_read?_of_describeItems (hschema : schema.IsUnambiguous) (contents : List Content)
    {type : DataType} {documents : List Json} {fuel : Nat}
    (h : schema.DescribeItems contents type documents)
    (hfuel : Json.depthItems documents < fuel) :
    documents.mapM (schema.read? fuel type) = some contents := by
  match contents with
  | [] =>
    rw [DescribeItems] at h
    rw [h]
    rfl
  | content :: rest =>
    rw [DescribeItems] at h
    obtain ⟨document, more, rfl, hdocument, hmore⟩ := h
    rw [Json.depthItems] at hfuel
    have hfirst := read?_of_describes hschema content hdocument
      (show document.depth < fuel by omega)
    have hrest := mapM_read?_of_describeItems hschema rest hmore
      (show Json.depthItems more < fuel by omega)
    rw [List.mapM_cons, hfirst, hrest]
    rfl

theorem mapM_read?_of_describeFields (hschema : schema.IsUnambiguous) (contents : List Content)
    {fields : List Field} {members entries : List (String × Json)} {fuel : Nat}
    (h : schema.DescribeFields contents fields members)
    (hentries : ∀ member ∈ members,
      Json.lookup member.1 entries = some member.2 ∧ member.2.depth < fuel) :
    (fields.mapM fun field => do
      schema.read? fuel field.type (← Json.lookup field.name entries)) = some contents := by
  match contents with
  | [] =>
    rw [DescribeFields] at h
    rw [h.1]
    rfl
  | content :: rest =>
    rw [DescribeFields] at h
    obtain ⟨field, otherFields, document, more, rfl, rfl, hdocument, hmore⟩ := h
    rw [List.forall_mem_cons] at hentries
    have hfirst := read?_of_describes hschema content hdocument hentries.1.2
    have hrest := mapM_read?_of_describeFields hschema rest hmore hentries.2
    rw [List.mapM_cons, hentries.1.1, hrest]
    simp [hfirst]

end

mutual

/-- Every number in the form of a value is whole. -/
theorem isWhole_of_form (content : Content) {type : DataType} {document : Json}
    (h : schema.form? content type = some document) : document.isWhole = true := by
  match content, type with
  | .text content, .text | .char value, .char | .flag value, .flag =>
    rw [form?] at h
    rw [← Option.some.inj h]
    rfl
  | .number value, .number =>
    rw [form?] at h
    rw [← Option.some.inj h]
    rfl
  | .list items, .list item =>
    rw [form?, Option.map_eq_map, Option.map_eq_some_iff] at h
    obtain ⟨documents, hdocuments, rfl⟩ := h
    rw [Json.isWhole]
    exact areWhole_of_forms items hdocuments
  | .made name contents, .declared declared =>
    simp only [form?, Option.bind_eq_bind, Option.bind_eq_some_iff] at h
    obtain ⟨declaration, -, alternative, -, members, hmembers, hform⟩ := h
    have hwhole := holdWhole_of_forms contents alternative.fields hmembers
    exact Declaration.isWhole_of_form hwhole hform

theorem areWhole_of_forms (contents : List Content) {type : DataType} {documents : List Json}
    (h : schema.itemForms? contents type = some documents) : Json.areWhole documents = true := by
  match contents with
  | [] =>
    rw [itemForms?] at h
    rw [← Option.some.inj h]
    rfl
  | content :: rest =>
    simp only [itemForms?, Option.bind_eq_bind, Option.bind_eq_some_iff] at h
    obtain ⟨document, hdocument, more, hmore, hcons⟩ := h
    rw [← Option.some.inj hcons, Json.areWhole, isWhole_of_form content hdocument,
      areWhole_of_forms rest hmore]
    rfl

theorem holdWhole_of_forms (contents : List Content) (fields : List Field)
    {members : List (String × Json)} (h : schema.fieldForms? contents fields = some members) :
    Json.holdWhole members = true := by
  match contents, fields with
  | [], [] =>
    rw [fieldForms?] at h
    rw [← Option.some.inj h]
    rfl
  | content :: contents, field :: fields =>
    simp only [fieldForms?, Option.bind_eq_bind, Option.bind_eq_some_iff] at h
    obtain ⟨document, hdocument, more, hmore, hcons⟩ := h
    rw [← Option.some.inj hcons, Json.holdWhole, Json.holdsWhole,
      isWhole_of_form content hdocument, holdWhole_of_forms contents fields hmore]
    rfl

end

end Schema

namespace Codec

variable {codec : Codec} {schema : Schema} {type : DataType} {content : Content}
  {document : Json}

/-- A codec that keeps its promises reads back the value it has written, unless the form
of the value is nested too deep. -/
theorem exists_read {limit : ℕ∞} (hwrites : codec.WritesForms)
    (hreads : codec.ReadsDescriptions limit) (hschema : schema.IsUnambiguous)
    (hform : schema.form? content type = some document) :
    ∃ text, codec.write schema type content = some text ∧
      ((document.depth : ℕ∞) ≤ limit → codec.read schema type text = some content) := by
  obtain ⟨text, hwrite, hspells⟩ := hwrites schema type content document hschema hform
  refine ⟨text, hwrite, fun hdepth => ?_⟩
  exact hreads schema type content document text hschema (Schema.describes_of_form content hform)
    hspells hdepth

/-- Two values whose texts are the same are the same, however deep they are nested: a text
spells one document, and a document is the form of one value. -/
theorem content_eq_of_write (hwrites : codec.WritesForms) (hschema : schema.IsUnambiguous)
    {other : Content} {otherDocument : Json}
    (hform : schema.form? content type = some document)
    (hother : schema.form? other type = some otherDocument)
    (h : codec.write schema type content = codec.write schema type other) : content = other := by
  obtain ⟨text, hwrite, hspells⟩ := hwrites schema type content document hschema hform
  obtain ⟨otherText, hotherWrite, hotherSpells⟩ :=
    hwrites schema type other otherDocument hschema hother
  obtain rfl : text = otherText := by
    rw [hwrite, hotherWrite] at h
    exact Option.some.inj h
  obtain rfl := hspells.unique hotherSpells
  have hread := Schema.read?_of_describes hschema content
    (Schema.describes_of_form content hform) (Nat.lt_succ_self _)
  have hotherRead := Schema.read?_of_describes hschema other
    (Schema.describes_of_form other hother) (Nat.lt_succ_self _)
  rw [hread] at hotherRead
  exact Option.some.inj hotherRead

theorem compact_writesForms (limit : Nat) : (compact limit).WritesForms := by
  intro schema type content document _ hform
  refine ⟨document.print, by simp [compact, hform], ?_⟩
  exact Json.spells_print (Schema.isWhole_of_form content hform)

theorem compact_readsDescriptions (limit : Nat) : (compact limit).ReadsDescriptions limit := by
  intro schema type content document text hschema hdescribes hspells hdepth
  have hlimit : document.depth ≤ limit := Nat.cast_le.mp hdepth
  have hread := Schema.read?_of_describes hschema content hdescribes (Nat.lt_succ_self _)
  simp [compact, Json.parse?_of_spells hspells, hlimit, hread]

end Codec

end SpokenKeys
