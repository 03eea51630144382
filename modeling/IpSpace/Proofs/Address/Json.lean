import IpSpace.Address.Json
import IpSpace.Proofs.Address.Grammar
import IpSpace.Proofs.Json.Layout

/-!
# Which JSON texts are addresses

An address of a stated family is an array of its bytes (`Json.IsArray`), an address of either family an object whose one
entry is that array under the key of its family (`Json.IsEntry`). Blanks may stand anywhere between the lexemes, and the key
may have escapes.

Reading accepts exactly these texts (`Address.fromJson?_eq_some_iff`, `AnyAddress.fromJson?_eq_some_iff`). What is written is
one of them, without blanks and escapes, so it is read back; and the two forms, and the arrays of the two families, are not
taken for each other (`json_round_trips`).
-/
namespace IpSpace

namespace Json

open Text.Dotted (SpellsByte)

/-! ## Arrays and entries -/

/-- The lexemes of an array of numerals. -/
def arrayLexemes (numerals : List (List Char)) : List (List Char) :=
  ['['] :: numerals.intersperse [','] ++ [[']']]

/-- The text is an array of the bytes. -/
def IsArray (cs : List Char) (bytes : List UInt8) : Prop :=
  ∃ numerals, List.Forall₂ SpellsByte numerals bytes ∧ Laid (arrayLexemes numerals) cs

/-- The text is an object whose one entry is an array of the bytes under the key. -/
def IsEntry (cs key : List Char) (bytes : List UInt8) : Prop :=
  ∃ raw numerals, SpellsText raw key ∧ List.Forall₂ SpellsByte numerals bytes ∧
    Laid (['\x7b'] :: ('\x22' :: raw ++ ['\x22']) :: [':'] :: (arrayLexemes numerals ++ [['\x7d']])) cs

/-- The tokens of an array of numerals. -/
def arrayTokens (numerals : List (List Char)) : List Token :=
  .openArray :: (numerals.map Token.number).intersperse .comma ++ [.closeArray]

/-- The tokens of an object whose one entry is an array of numerals. -/
def entryTokens (key : List Char) (numerals : List (List Char)) : List Token :=
  .openObject :: .string key :: .colon :: (arrayTokens numerals ++ [.closeObject])

theorem intersperse_cons {α : Type} (x : α) (xs : List α) (separator : α) :
    (x :: xs).intersperse separator = x :: xs.flatMap fun y => [separator, y] := by
  induction xs generalizing x with
  | nil => rfl
  | cons y ys ih => simp [ih]

variable {key : List Char} {numerals : List (List Char)} {bytes : List UInt8} {ts rest : List Token}

/-- The tokens of an array after its first number, up to the bracket. -/
def moreTokens (numerals : List (List Char)) : List Token := numerals.flatMap fun d => [.comma, .number d]

theorem moreTokens_cons (n : List Char) (ns : List (List Char)) :
    moreTokens (n :: ns) = .comma :: .number n :: moreTokens ns := rfl

theorem arrayTokens_cons (n : List Char) (ns : List (List Char)) :
    arrayTokens (n :: ns) = .openArray :: .number n :: (moreTokens ns ++ [.closeArray]) := by
  rw [arrayTokens, List.map_cons, intersperse_cons, List.flatMap_map, List.cons_append, List.cons_append]
  rfl

theorem ofBytes_eq_arrayTokens (bytes : List UInt8) :
    ofBytes bytes = arrayTokens (bytes.map Text.Dotted.writeByte) := by
  rw [ofBytes, arrayTokens, List.map_map]
  rfl

theorem forall₂_spellsByte_writeByte (bytes : List UInt8) :
    List.Forall₂ SpellsByte (bytes.map Text.Dotted.writeByte) bytes :=
  List.forall₂_map_left_iff.2 (List.forall₂_same.2 fun b _ => Text.Dotted.spellsByte_writeByte b)

/-! ## Reading tokens -/

theorem readMore?_eq_some_iff :
    readMore? ts = some (bytes, rest) ↔ ∃ ns, List.Forall₂ SpellsByte ns bytes ∧
      ts = moreTokens ns ++ .closeArray :: rest := by
  constructor
  · intro h
    fun_induction readMore? ts generalizing bytes with
    | case1 =>
      cases h
      exact ⟨[], .nil, rfl⟩
    | case2 digits ts ih =>
      obtain ⟨byte, hbyte, h⟩ := Option.bind_eq_some_iff.1 h
      obtain ⟨⟨more, _⟩, hmore, h⟩ := Option.bind_eq_some_iff.1 h
      cases h
      obtain ⟨ns, hns, rfl⟩ := ih hmore
      exact ⟨digits :: ns, .cons (Text.Dotted.readByte?_eq_some_iff.1 hbyte) hns, rfl⟩
    | case3 => cases h
  · rintro ⟨ns, hns, rfl⟩
    induction hns with
    | nil => rfl
    | cons hbyte _ ih =>
      simp [moreTokens_cons, readMore?, Text.Dotted.readByte?_eq_some_iff.2 hbyte, ih]

theorem readBytes?_eq_some_iff :
    readBytes? ts = some (bytes, rest) ↔ ∃ ns, List.Forall₂ SpellsByte ns bytes ∧ bytes ≠ [] ∧
      ts = arrayTokens ns ++ rest := by
  constructor
  · intro h
    unfold readBytes? at h
    split at h
    · rename_i digits ts
      obtain ⟨byte, hbyte, h⟩ := Option.bind_eq_some_iff.1 h
      obtain ⟨⟨more, _⟩, hmore, h⟩ := Option.bind_eq_some_iff.1 h
      cases h
      obtain ⟨ns, hns, rfl⟩ := readMore?_eq_some_iff.1 hmore
      refine ⟨digits :: ns, .cons (Text.Dotted.readByte?_eq_some_iff.1 hbyte) hns, List.cons_ne_nil _ _, ?_⟩
      simp [arrayTokens_cons]
    · cases h
  · rintro ⟨ns, hns, hne, rfl⟩
    cases hns with
    | nil => exact absurd rfl hne
    | @cons n byte ns bytes hbyte hns =>
      have hmore : readMore? _ = some (bytes, rest) := readMore?_eq_some_iff.2 ⟨ns, hns, rfl⟩
      simp [arrayTokens_cons, readBytes?, Text.Dotted.readByte?_eq_some_iff.2 hbyte, hmore]

/-! ## Lexemes -/

theorem plain_number {cs : List Char} {byte : UInt8} (h : SpellsByte cs byte) : (Token.number cs).Plain := by
  refine ⟨h.within.ne_nil, fun c hc => ?_⟩
  obtain ⟨digit, hd⟩ := h.within.spells.exists_isDigit hc
  exact hd.isDigit

theorem plain_arrayTokens (h : List.Forall₂ SpellsByte numerals bytes) : ∀ t ∈ arrayTokens numerals, t.Plain := by
  have hmore {ns : List (List Char)} {bytes : List UInt8} (h : List.Forall₂ SpellsByte ns bytes) :
      ∀ t ∈ moreTokens ns, t.Plain := by
    induction h with
    | nil => simp [moreTokens]
    | cons hbyte _ ih =>
      exact List.forall_mem_cons.2 ⟨trivial, List.forall_mem_cons.2 ⟨plain_number hbyte, ih⟩⟩
  have hclose : ∀ t ∈ [Token.closeArray], t.Plain := List.forall_mem_singleton.2 trivial
  cases h with
  | nil => exact List.forall_mem_cons.2 ⟨trivial, hclose⟩
  | cons hbyte h =>
    rw [arrayTokens_cons]
    refine List.forall_mem_cons.2 ⟨trivial, List.forall_mem_cons.2 ⟨plain_number hbyte, ?_⟩⟩
    exact List.forall_mem_append.2 ⟨hmore h, hclose⟩

theorem map_write_arrayTokens (numerals : List (List Char)) :
    (arrayTokens numerals).map Token.write = arrayLexemes numerals := by
  cases numerals with
  | nil => rfl
  | cons n ns => simp [arrayTokens_cons, moreTokens, arrayLexemes, intersperse_cons, List.map_flatMap, Token.write]

theorem forall₂_lexeme_array (h : List.Forall₂ SpellsByte numerals bytes) {ls : List (List Char)} :
    List.Forall₂ Lexeme (arrayTokens numerals) ls ↔ ls = arrayLexemes numerals := by
  rw [forall₂_lexeme_iff (plain_arrayTokens h), map_write_arrayTokens]

theorem forall₂_lexeme_entry (h : List.Forall₂ SpellsByte numerals bytes) {ls : List (List Char)} :
    List.Forall₂ Lexeme (entryTokens key numerals) ls ↔ ∃ raw, SpellsText raw key ∧
      ls = ['\x7b'] :: ('\x22' :: raw ++ ['\x22']) :: [':'] :: (arrayLexemes numerals ++ [['\x7d']]) := by
  have hplain : ∀ t ∈ arrayTokens numerals ++ [.closeObject], t.Plain :=
    List.forall_mem_append.2 ⟨plain_arrayTokens h, List.forall_mem_singleton.2 trivial⟩
  have hopen {l : List Char} : Lexeme .openObject l ↔ l = ['\x7b'] := lexeme_iff_eq_write (t := .openObject) trivial
  have hcolon {l : List Char} : Lexeme .colon l ↔ l = [':'] := lexeme_iff_eq_write (t := .colon) trivial
  have hclose : Token.closeObject.write = ['\x7d'] := rfl
  simp only [entryTokens, List.forall₂_cons_left_iff, hopen, hcolon, lexeme_string_iff, forall₂_lexeme_iff hplain,
    List.map_append, map_write_arrayTokens, List.map_cons, List.map_nil, hclose]
  grind

/-- In an array numbers have commas between them. -/
theorem apart_arrayTokens (hrest : Apart (.closeArray :: rest)) : Apart (arrayTokens numerals ++ rest) := by
  have hmore (t : Token) (ns : List (List Char)) : Apart (t :: (moreTokens ns ++ .closeArray :: rest)) := by
    induction ns generalizing t with
    | nil => exact List.isChain_cons_cons.2 ⟨fun h => h.2, hrest⟩
    | cons n ns ih =>
      exact List.isChain_cons_cons.2 ⟨fun h => h.2, List.isChain_cons_cons.2 ⟨fun h => h.1, ih (.number n)⟩⟩
  cases numerals with
  | nil => exact hmore .openArray []
  | cons n ns =>
    rw [arrayTokens_cons, List.cons_append, List.cons_append, List.append_assoc]
    exact List.isChain_cons_cons.2 ⟨fun h => h.1, hmore (.number n) ns⟩

/-! ## Reading texts -/

theorem scan_array_iff {cs : List Char} (h : List.Forall₂ SpellsByte numerals bytes) :
    scan cs = some (arrayTokens numerals) ↔ Laid (arrayLexemes numerals) cs := by
  have hapart : Apart (arrayTokens numerals ++ []) := apart_arrayTokens (List.isChain_singleton _)
  rw [List.append_nil] at hapart
  simp only [scan_eq_some_iff hapart, forall₂_lexeme_array h, exists_eq_left]

theorem scan_entry_iff {cs : List Char} (h : List.Forall₂ SpellsByte numerals bytes) :
    scan cs = some (entryTokens key numerals) ↔ ∃ raw, SpellsText raw key ∧
      Laid (['\x7b'] :: ('\x22' :: raw ++ ['\x22']) :: [':'] :: (arrayLexemes numerals ++ [['\x7d']])) cs := by
  have hapart : Apart (entryTokens key numerals) := by
    refine List.isChain_cons_cons.2 ⟨fun h => h.1, List.isChain_cons_cons.2 ⟨fun h => h.1, ?_⟩⟩
    refine List.isChain_cons.2 ⟨fun _ _ h => h.1, apart_arrayTokens ?_⟩
    exact List.isChain_cons_cons.2 ⟨fun h => h.1, List.isChain_singleton _⟩
  simp only [scan_eq_some_iff hapart, forall₂_lexeme_entry h]
  constructor
  · rintro ⟨_, ⟨raw, hraw, rfl⟩, hlaid⟩
    exact ⟨raw, hraw, hlaid⟩
  · rintro ⟨raw, hraw, hlaid⟩
    exact ⟨_, ⟨raw, hraw, rfl⟩, hlaid⟩

end Json

theorem Family.spellsText_key (f : Family) : Json.SpellsText f.key f.key := by
  cases f with
  | v4 => exact .plain (by decide) (by decide) (by decide) (.plain (by decide) (by decide) (by decide) .nil)
  | v6 => exact .plain (by decide) (by decide) (by decide) (.plain (by decide) (by decide) (by decide) .nil)

theorem Family.ofKey?_eq_some_iff {key : List Char} {f : Family} : ofKey? key = some f ↔ key = f.key := by
  unfold ofKey?
  cases f <;> grind [Family.key]

variable {f : Family}

theorem Address.octets_ne_nil (a : Address f) : a.octets ≠ [] := by
  rw [← List.length_pos_iff, a.length_octets]
  exact f.bytes_pos

namespace Address

theorem ofTokens?_eq_some_iff_readBytes? {ts : List Json.Token} {a : Address f} :
    ofTokens? f ts = some a ↔ Json.readBytes? ts = some (a.octets, []) := by
  unfold ofTokens?
  split <;> simp_all [ofOctets?_eq_some_iff]

theorem ofTokens?_eq_some_iff {ts : List Json.Token} {a : Address f} :
    ofTokens? f ts = some a ↔
      ∃ ns, List.Forall₂ Text.Dotted.SpellsByte ns a.octets ∧ ts = Json.arrayTokens ns := by
  simp only [ofTokens?_eq_some_iff_readBytes?, Json.readBytes?_eq_some_iff, List.append_nil]
  constructor
  · rintro ⟨ns, hns, -, hts⟩
    exact ⟨ns, hns, hts⟩
  · rintro ⟨ns, hns, hts⟩
    exact ⟨ns, hns, a.octets_ne_nil, hts⟩

theorem fromJson?_eq_some_iff {s : String} {a : Address f} :
    fromJson? f s = some a ↔ Json.IsArray s.toList a.octets := by
  simp only [fromJson?, Option.bind_eq_bind, Option.bind_eq_some_iff, ofTokens?_eq_some_iff]
  constructor
  · rintro ⟨_, hscan, ns, hns, rfl⟩
    exact ⟨ns, hns, (Json.scan_array_iff hns).1 hscan⟩
  · rintro ⟨ns, hns, hlaid⟩
    exact ⟨_, (Json.scan_array_iff hns).2 hlaid, ns, hns, rfl⟩

theorem isArray_toJson (a : Address f) : Json.IsArray a.toJson.toList a.octets := by
  have hns := Json.forall₂_spellsByte_writeByte a.octets
  refine ⟨_, hns, ?_⟩
  have htext : a.toJson.toList = (Json.arrayLexemes (a.octets.map Text.Dotted.writeByte)).flatten := by
    rw [toJson, String.toList_ofList, toTokens, Json.ofBytes_eq_arrayTokens, List.flatMap_def, Json.map_write_arrayTokens]
  rw [htext]
  exact Json.laid_flatten _

@[simp] theorem fromJson?_toJson (a : Address f) : fromJson? f a.toJson = some a :=
  fromJson?_eq_some_iff.2 a.isArray_toJson

/-- No text is read as addresses of two families. -/
theorem family_eq_of_fromJson? {s : String} {g : Family} {a : Address f} {b : Address g} (ha : fromJson? f s = some a)
    (hb : fromJson? g s = some b) : f = g := by
  obtain ⟨ts, hscan, ha⟩ := Option.bind_eq_some_iff.1 ha
  obtain ⟨_, hscan', hb⟩ := Option.bind_eq_some_iff.1 hb
  cases hscan.symm.trans hscan'
  rw [ofTokens?_eq_some_iff_readBytes?] at ha hb
  have hlength : f.bytes = g.bytes := by
    have hoctets := congrArg (fun r => r.map fun p => p.1.length) (ha.symm.trans hb)
    simpa [a.length_octets, b.length_octets] using hoctets
  cases f <;> cases g <;> first | rfl | cases hlength

end Address

namespace AnyAddress

theorem ofTokens?_eq_some_iff {ts : List Json.Token} {x : AnyAddress} :
    ofTokens? ts = some x ↔
      ∃ ns, List.Forall₂ Text.Dotted.SpellsByte ns x.address.octets ∧ ts = Json.entryTokens x.family.key ns := by
  constructor
  · intro h
    unfold ofTokens? at h
    split at h
    · rename_i key ts
      obtain ⟨f, hkey, htail⟩ := Option.bind_eq_some_iff.1 h
      obtain ⟨⟨bytes, rest⟩, hbytes, hclose⟩ := Option.bind_eq_some_iff.1 htail
      split at hclose
      · rename_i heq
        cases heq
        obtain ⟨a, ha, rfl⟩ := Option.map_eq_some_iff.1 hclose
        obtain rfl := Address.ofOctets?_eq_some_iff.1 ha
        obtain rfl := Family.ofKey?_eq_some_iff.1 hkey
        obtain ⟨ns, hns, -, rfl⟩ := Json.readBytes?_eq_some_iff.1 hbytes
        exact ⟨ns, hns, rfl⟩
      · cases hclose
    · cases h
  · rintro ⟨ns, hns, rfl⟩
    have hbytes : Json.readBytes? (Json.arrayTokens ns ++ [.closeObject]) = some (x.address.octets, [.closeObject]) :=
      Json.readBytes?_eq_some_iff.2 ⟨ns, hns, x.address.octets_ne_nil, rfl⟩
    have haddress := Address.ofOctets?_eq_some_iff.2 (Eq.refl x.address.octets)
    simp [ofTokens?, Json.entryTokens, Family.ofKey?_eq_some_iff.2 rfl, hbytes, haddress]

theorem fromJson?_eq_some_iff {s : String} {x : AnyAddress} :
    fromJson? s = some x ↔ Json.IsEntry s.toList x.family.key x.address.octets := by
  simp only [fromJson?, Option.bind_eq_bind, Option.bind_eq_some_iff, ofTokens?_eq_some_iff]
  constructor
  · rintro ⟨_, hscan, ns, hns, rfl⟩
    obtain ⟨raw, hraw, hlaid⟩ := (Json.scan_entry_iff hns).1 hscan
    exact ⟨raw, ns, hraw, hns, hlaid⟩
  · rintro ⟨raw, ns, hraw, hns, hlaid⟩
    exact ⟨_, (Json.scan_entry_iff hns).2 ⟨raw, hraw, hlaid⟩, ns, hns, rfl⟩

theorem isEntry_toJson (x : AnyAddress) : Json.IsEntry x.toJson.toList x.family.key x.address.octets := by
  have hns := Json.forall₂_spellsByte_writeByte x.address.octets
  refine ⟨x.family.key, _, x.family.spellsText_key, hns, ?_⟩
  have htext : x.toJson.toList = (['\x7b'] :: ('\x22' :: x.family.key ++ ['\x22']) :: [':'] ::
      (Json.arrayLexemes (x.address.octets.map Text.Dotted.writeByte) ++ [['\x7d']])).flatten := by
    rw [toJson, String.toList_ofList, toTokens, Address.toTokens, Json.ofBytes_eq_arrayTokens, List.flatMap_def,
      List.map_append, List.map_append, Json.map_write_arrayTokens]
    rfl
  rw [htext]
  exact Json.laid_flatten _

@[simp] theorem fromJson?_toJson (x : AnyAddress) : fromJson? x.toJson = some x :=
  fromJson?_eq_some_iff.2 x.isEntry_toJson

/-- No text is read both with a stated family and without one. -/
theorem fromJson?_disjoint {s : String} {x : AnyAddress} {a : Address f} (hx : fromJson? s = some x)
    (ha : Address.fromJson? f s = some a) : False := by
  obtain ⟨ts, hscan, hx⟩ := Option.bind_eq_some_iff.1 hx
  obtain ⟨_, hscan', ha⟩ := Option.bind_eq_some_iff.1 ha
  cases hscan.symm.trans hscan'
  obtain ⟨ns, -, hentry⟩ := ofTokens?_eq_some_iff.1 hx
  obtain ⟨ms, -, harray⟩ := Address.ofTokens?_eq_some_iff.1 ha
  cases hentry.symm.trans harray

end AnyAddress

/-- What is written for an address is read back as it and as nothing else: the array of its bytes only under its own family,
and the entry only without a stated family. The texts that are read are, up to blanks, the array of the bytes of the address and
the object whose one entry is that array under the key of the family, with or without escapes in the key. Writing what was
read and reading it again gives the same. -/
theorem json_round_trips :
    (∀ x : AnyAddress, AnyAddress.fromJson? x.toJson = some x ∧ ∀ f, Address.fromJson? f x.toJson = none) ∧
    (∀ (f : Family) (a : Address f), Address.fromJson? f a.toJson = some a ∧ AnyAddress.fromJson? a.toJson = none ∧
      ∀ g ≠ f, Address.fromJson? g a.toJson = none) ∧
    (∀ (f : Family) (s : String) (a : Address f), Address.fromJson? f s = some a ↔ Json.IsArray s.toList a.octets) ∧
    (∀ (s : String) (x : AnyAddress),
      AnyAddress.fromJson? s = some x ↔ Json.IsEntry s.toList x.family.key x.address.octets) ∧
    (∀ (f : Family) (s : String),
      (Address.fromJson? f s).bind (fun a => Address.fromJson? f a.toJson) = Address.fromJson? f s) ∧
    (∀ s : String, (AnyAddress.fromJson? s).bind (fun x => AnyAddress.fromJson? x.toJson) = AnyAddress.fromJson? s) := by
  refine ⟨fun x => ⟨x.fromJson?_toJson, fun f => ?_⟩, fun f a => ⟨a.fromJson?_toJson, ?_, fun g hg => ?_⟩,
    fun f s a => Address.fromJson?_eq_some_iff, fun s x => AnyAddress.fromJson?_eq_some_iff, fun f s => ?_, fun s => ?_⟩
  · exact Option.eq_none_iff_forall_ne_some.2 fun a ha => AnyAddress.fromJson?_disjoint x.fromJson?_toJson ha
  · exact Option.eq_none_iff_forall_ne_some.2 fun x hx => AnyAddress.fromJson?_disjoint hx a.fromJson?_toJson
  · exact Option.eq_none_iff_forall_ne_some.2 fun b hb => hg (Address.family_eq_of_fromJson? hb a.fromJson?_toJson)
  · simp
  · simp

-- blanks between lexemes and an escape in the key
example : AnyAddress.fromJson? " \x7b\"\\u00564\" : [192,0 ,2,1]\x7d" = some ⟨.v4, .ofNat .v4 0xc0000201⟩ := by
  decide +kernel

end IpSpace
