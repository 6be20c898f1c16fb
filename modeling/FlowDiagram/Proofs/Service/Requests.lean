import FlowDiagram.Proofs.Json.Texts
import FlowDiagram.Proofs.Service.Paths
/-!
# Requests for diagrams

A stored version is asked for at its path, perhaps with a layout among the parameters of the query
(`Request.Shows`), and a text is sent in a body with fields (`Request.Sends`). Every layout can be
asked for, and every text can be sent with every layout (`exists_shows`, `exists_sends`): a layout is
written with percent signs, and the body is a mapping of names to texts, whose bytes are plain.
-/

namespace FlowDiagram.Service

open Document Text

/-! ## Parameters -/

/-- The bytes of a text by their hexadecimal digits. -/
def percentEncoded (cs : List Char) : List Char :=
  (cs.flatMap String.utf8EncodeChar).flatMap fun b => '%' :: hex 2 b.toNat

section

variable {c : Char} {cs : List Char}

theorem percentBytes_encoded (bs : List UInt8) :
    percentBytes (bs.flatMap fun b => '%' :: hex 2 b.toNat) = bs := by
  induction bs with
  | nil => rfl
  | cons b rest ih =>
      have digits : hex 2 b.toNat = [hexDigit (b.toNat / 16), hexDigit b.toNat] := rfl
      have byte : UInt8.ofNat (16 * (b.toNat / 16 % 16) + b.toNat % 16) = b := by
        have bounded := b.toNat_lt
        have whole : 16 * (b.toNat / 16 % 16) + b.toNat % 16 = b.toNat := by omega
        rw [whole, UInt8.ofNat_toNat]
      rw [List.flatMap_cons, digits]
      simp only [List.cons_append, List.nil_append]
      rw [percentBytes]
      simp only [hexValue?_hexDigit, byte, ih]

theorem percentDecoded_encoded (cs : List Char) : percentDecoded (percentEncoded cs) = cs := by
  rw [percentDecoded, percentEncoded, percentBytes_encoded, decodeLossy_encoded]

/-- Nothing in an encoded text has a meaning of its own in a query. -/
theorem of_mem_percentEncoded (member : c ∈ percentEncoded cs) : c ≠ '&' ∧ c ≠ '+' := by
  obtain ⟨b, -, member⟩ := List.mem_flatMap.mp member
  have digit (n : Nat) : hexDigit n ≠ '&' ∧ hexDigit n ≠ '+' := by
    have each : ∀ m < 16, m.digitChar ≠ '&' ∧ m.digitChar ≠ '+' := by decide
    exact each _ (Nat.mod_lt n (by decide))
  have digits : hex 2 b.toNat = [hexDigit (b.toNat / 16), hexDigit b.toNat] := rfl
  rw [digits] at member
  simp only [List.mem_cons, List.not_mem_nil, or_false] at member
  obtain rfl | rfl | rfl := member
  · decide
  · exact digit _
  · exact digit _

/-- A query that names a layout. -/
def layoutQuery (layout : String) : List Char := "layout=".toList ++ percentEncoded layout.toList

theorem parameter_layoutQuery (layout : String) :
    parameter (layoutQuery layout) = ("layout", layout) := by
  have parts : cut '=' (layoutQuery layout) = ("layout".toList, percentEncoded layout.toList) := rfl
  have name : String.ofList (percentDecoded ("layout".toList.map fun c =>
      if c = '+' then ' ' else c)) = "layout" := by decide +kernel
  have kept : ((percentEncoded layout.toList).map fun c => if c = '+' then ' ' else c) =
      percentEncoded layout.toList :=
    (List.map_congr_left fun c member => if_neg (of_mem_percentEncoded member).2).trans
      (List.map_id _)
  rw [parameter, parts]
  dsimp only
  rw [name, kept, percentDecoded_encoded, String.ofList_toList]

theorem parameter?_layoutQuery {t : Target} {layout : String} (query : t.query = layoutQuery layout) :
    t.parameter? "layout" = some layout := by
  have whole : split '&' (layoutQuery layout) = [layoutQuery layout] := by
    refine split_of_not_mem fun mark => ?_
    obtain named | valued := List.mem_append.mp mark
    · revert named
      decide
    · exact (of_mem_percentEncoded valued).1 rfl
  rw [Target.parameter?, Target.parameters, query, whole]
  have filled : (layoutQuery layout).isEmpty = false := rfl
  simp [filled, parameter_layoutQuery]

end

/-! ## Bodies -/

/-- Without zeros among the bytes nothing suggests wide units. -/
theorem ofBytes_of_filled {bs : List UInt8} (filled : ∀ b ∈ bs, b ≠ 0) :
    Encoding.ofBytes bs = .narrow := by
  unfold Encoding.ofBytes
  split
  · simp_all
  · simp_all
  · rfl

/-- The text of a plain body. -/
theorem bodyText_of_plain {body : String} (plain : ∀ c ∈ body.toList, IsPlain c) :
    bodyText body = .ok body.toList := by
  have narrow : Encoding.ofBytes body.toUTF8.toList = .narrow := by
    refine ofBytes_of_filled fun b member => ?_
    rw [toList_toUTF8] at member
    obtain ⟨c, own, member⟩ := List.mem_flatMap.mp member
    exact ne_zero_of_isPlain (plain c own) b member
  rw [bodyText, narrow]
  dsimp only
  split
  · next mark => exact absurd (plain '\uFEFF' (mark ▸ List.mem_cons_self)) (by decide)
  · rfl

theorem bodyObject_of_read {body : String} {entries : List (Value × Value)}
    (filled : body.isEmpty = false) (whole : bodyText body = .ok body.toList)
    (read : Json.read body.toList = .ok (.map entries)) :
    bodyObject (some body) = .ok (.map entries) := by
  rw [bodyObject, Option.getD_some, filled, whole]
  dsimp only
  rw [read]
  rfl

/-- Fields with texts are sent as a mapping of their names to them. -/
theorem bodyObject_written {fields : List (String × String)}
    (distinct : (fields.map Prod.fst).Nodup) :
    bodyObject (some (Json.written fields)) = .ok (.map (Json.textEntries fields)) := by
  have filled : (Json.written fields).isEmpty = false := by
    rw [← Bool.not_eq_true, String.isEmpty_iff]
    intro empty
    have text := Json.toList_written fields
    rw [empty] at text
    contradiction
  exact bodyObject_of_read filled (bodyText_of_plain (Json.isPlain_written fields))
    (Json.read_written distinct)

/-! ## Requests -/

/-- A request for the diagram of a version of a flow. -/
structure Request.Shows (r : Request) (flow : String) (version : Int) : Prop where
  method : r.method = "GET"
  path : r.target.path = versionPath flow version

/-- A request for the diagram of a text. At most a layout is chosen. -/
structure Request.Sends (r : Request) (text : String) (layout : Option String) : Prop where
  method : r.method = "POST"
  path : r.target.path = "/api/flows/render".toList
  body : ∃ object, bodyObject r.body = .ok object ∧
    object.get? "definition" = some (.str text) ∧ object.get? "layout" = layout.map .str ∧
    object.get? "syntax" = none ∧ object.get? "expandSubflows" = none

/-- Every version can be asked for in every layout. -/
theorem exists_shows (flow : String) (version : Int) (layout : Option String) :
    ∃ r : Request, r.Shows flow version ∧ r.target.parameter? "layout" = layout := by
  cases layout with
  | none => exact ⟨⟨"GET", ⟨versionPath flow version, []⟩, none⟩, ⟨rfl, rfl⟩, rfl⟩
  | some layout =>
      exact ⟨⟨"GET", ⟨versionPath flow version, layoutQuery layout⟩, none⟩, ⟨rfl, rfl⟩,
        parameter?_layoutQuery rfl⟩

/-- Every text can be sent with every layout. -/
theorem exists_sends (text : String) (layout : Option String) :
    ∃ r : Request, r.Sends text layout := by
  let fields := ("definition", text) :: layout.toList.map ("layout", ·)
  have distinct : (fields.map Prod.fst).Nodup := by
    cases layout <;> simp [fields]
  refine ⟨⟨"POST", ⟨"/api/flows/render".toList, []⟩, some (Json.written fields)⟩, rfl, rfl, _,
    bodyObject_written distinct, ?_⟩
  cases layout <;> exact ⟨rfl, rfl, rfl, rfl⟩

end FlowDiagram.Service
