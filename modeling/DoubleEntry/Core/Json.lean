import DoubleEntry.Core.Codec

/-!
# Strings and objects of JSON

Text is a list of characters. A string is quoted, with the quote and the backslash
escaped; an object is its members in braces, in their order. Where a string ends can be
told from the text, whatever its characters are (`selfDelimiting_jsonString`), and so
the text of an object determines its members (`jsonObject_injective`).

Nothing is said of reading JSON: what the results are for is that no two objects have one text.

**Results.**
* `selfDelimiting_escape`: one character, escaped or not, ends where its text says.
* `selfDelimiting_jsonString`, `selfDelimiting_jsonMember`: so does a string, and a member.
* `jsonObject_injective`: objects with the same text have the same members.
-/
namespace DoubleEntry.Core

def escape (c : Char) : List Char :=
  if c = '"' then ['\\', '"'] else if c = '\\' then ['\\', '\\'] else [c]

def jsonString (s : List Char) : List Char := '"' :: s.flatMap escape ++ ['"']

def jsonMember (p : List Char × List Char) : List Char := jsonString p.1 ++ [':'] ++ jsonString p.2

def jsonObject (members : List (List Char × List Char)) : List Char :=
  '{' :: [','].intercalate (members.map jsonMember) ++ ['}']

theorem selfDelimiting_escape : SelfDelimiting (fun _ => True) escape := by
  intro a b x y _ _ e
  unfold escape at e
  split_ifs at e <;> grind

/-- No character is escaped to the quote that ends a string. -/
theorem escape_head (c : Char) : ∃ d s, escape c = d :: s ∧ d ≠ '"' := by
  by_cases hquote : c = '"'
  · exact ⟨'\\', ['"'], if_pos hquote, by decide⟩
  · by_cases hslash : c = '\\'
    · exact ⟨'\\', ['\\'], by rw [escape, if_neg hquote, if_pos hslash], by decide⟩
    · exact ⟨c, [], by rw [escape, if_neg hquote, if_neg hslash], hquote⟩

/-- **A string ends where its text says.** -/
theorem selfDelimiting_jsonString : SelfDelimiting (fun _ => True) jsonString := by
  have hbody := selfDelimiting_escape.terminated fun c _ => escape_head c
  intro a b x y _ _ e
  exact hbody a b x y (fun _ _ => trivial) (fun _ _ => trivial) (by simpa [jsonString] using e)

theorem selfDelimiting_jsonMember : SelfDelimiting (fun _ => True) jsonMember := by
  have hpair := (selfDelimiting_jsonString.between [] [':']).pair selfDelimiting_jsonString
  intro a b x y _ _ e
  exact hpair a b x y ⟨trivial, trivial⟩ ⟨trivial, trivial⟩ e

/-- All members but the first are behind a comma. -/
theorem jsonObject_cons (p : List Char × List Char) (members : List (List Char × List Char)) :
    jsonObject (p :: members) = '{' :: (jsonMember p ++ (members.flatMap (fun q => [','] ++ jsonMember q ++ []) ++ ['}'])) := by
  have hcomma : ∀ p, [','].intercalate ((p :: members).map jsonMember) =
      jsonMember p ++ members.flatMap fun q => [','] ++ jsonMember q ++ [] := by
    induction members with
    | nil => simp
    | cons q members ih =>
      intro p
      rw [List.map_cons, List.map_cons, List.intercalate_cons_cons, ← List.map_cons, ih, List.flatMap_cons]
      simp
  rw [jsonObject, hcomma, List.cons_append, List.append_assoc]

/-- **The text of an object determines its members.** -/
theorem jsonObject_injective : Function.Injective jsonObject := by
  have hrest := (selfDelimiting_jsonMember.between [','] []).terminated (e := '}') fun p _ => ⟨',', _, rfl, by decide⟩
  intro members members' e
  cases members with
  | nil =>
    cases members' with
    | nil => rfl
    | cons p' rest' => simp [jsonObject, jsonMember, jsonString] at e
  | cons p rest =>
    cases members' with
    | nil => simp [jsonObject, jsonMember, jsonString] at e
    | cons p' rest' =>
      rw [jsonObject_cons, jsonObject_cons, List.cons.injEq] at e
      obtain ⟨rfl, hmembers⟩ := selfDelimiting_jsonMember _ _ _ _ trivial trivial e.2
      rw [hrest.injective (fun _ _ => trivial) (fun _ _ => trivial) hmembers]

example : jsonObject [("note".toList, "a\"b\\c".toList)] = "\x7b\"note\":\"a\\\"b\\\\c\"\x7d".toList := by decide

end DoubleEntry.Core
