import PhoebusBsp.Tftp.Transfer
import PhoebusBsp.Schemes.Chain

/-! The requests that `tftpd.py` and `tftp-recv.py` read (`parse_rrq`, `parse_rq`).

        filename NUL mode NUL option NUL value NUL option NUL value NUL ...
            │         │     └──────┬──────┘     └──────┬──────┘
            0         1          rest[0..1]          rest[2..3]

    Empty fields are dropped before they are counted. The loop over the options takes every second
    index below `len(rest) - 1`, so a field without a partner at the end is left out. -/

namespace PhoebusBsp.Tftp
open Schemes List

/-! ### Texts and dictionaries -/

/-- The characters of a Python string. -/
abbrev Text := List Char

/-- `bytes.decode("latin-1")`. -/
def decodeLatin1 (bs : Datagram) : Text := bs.map fun b => Char.ofNat b.toNat

/-- `str.encode("latin-1")` of characters below 256. -/
def encodeLatin1 (s : Text) : Datagram := s.map fun c => UInt8.ofNat c.toNat

/-- The capital letters below 256: A to Z, and À to Þ without the multiplication sign. -/
def isUpper (c : Char) : Bool :=
  (65 ≤ c.toNat && c.toNat ≤ 90) || (192 ≤ c.toNat && c.toNat ≤ 222 && c.toNat ≠ 215)

/-- `str.lower` of characters below 256. -/
def lower (s : Text) : Text := s.map fun c => if isUpper c then Char.ofNat (c.toNat + 32) else c

/-- A dictionary, in the order in which its keys came. -/
abbrev Options := List (Text × Text)

def Options.get (opts : Options) (k : Text) : Option Text := (Chain.search Prod.fst k opts).map Prod.snd

/-- `opts[k] = x`. -/
def Options.set (opts : Options) (k x : Text) : Options :=
  if (Chain.search Prod.fst k opts).isSome then Chain.update Prod.fst k (fun _ => (k, x)) opts
  else opts ++ [(k, x)]

/-! ### Parsing -/

/-- The fields that are not empty. -/
def fields (payload : Datagram) : List Text :=
  ((payload.splitOn 0).map decodeLatin1).filter fun p => p ≠ []

/-- The loop over `range(0, len(rest) - 1, 2)`. -/
def parseOpts (rest : List Text) : Options :=
  ((List.range (rest.length - 1)).filter fun i => i % 2 = 0).foldl (fun opts i =>
    opts.set (lower (rest.getD i [])) (rest.getD (i + 1) [])) []

/-- `parse_rrq`: filename, mode and options. -/
def parseRrq (payload : Datagram) : Option Text × Option Text × Options :=
  let parts := fields payload
  if parts.length < 2 then (none, none, [])
  else (some (parts.getD 0 []), some (lower (parts.getD 1 [])), parseOpts (parts.drop 2))

/-- `parse_rq` of `tftp-recv.py`. -/
def parseRq (payload : Datagram) : Option Text × Option Text × Options :=
  let parts := fields payload
  if parts.length < 2 then (none, none, [])
  else
    let opts := parseOpts (parts.drop 2)
    (some (parts.getD 0 []), some (lower (parts.getD 1 [])), opts)

/-! ### Dictionaries -/

section Options

variable {opts : Options} {k k' x : Text}

theorem Options.get_set : (opts.set k x).get k' = if k' = k then some x else opts.get k' := by
  have hkey : ∀ a : Text × Text, a.1 = k → (k, x).1 = k := fun _ _ => rfl
  unfold Options.get Options.set
  split
  · next hold =>
    by_cases hk : k' = k
    · subst hk
      obtain ⟨y, hy⟩ := Option.isSome_iff_exists.mp hold
      rw [if_pos rfl, Chain.search_update_self hkey, hy]
      rfl
    · rw [if_neg hk, Chain.search_update_of_ne hkey hk]
  · next hnew =>
    rw [Bool.not_eq_true, Option.isSome_eq_false_iff, Option.isNone_iff_eq_none] at hnew
    have happend : Chain.search Prod.fst k' (opts ++ [(k, x)]) =
        (Chain.search Prod.fst k' opts).or (Chain.search Prod.fst k' [(k, x)]) := List.find?_append
    rw [happend, Chain.search_cons]
    by_cases hk : k' = k
    · subst hk
      rw [hnew, if_pos rfl, if_pos rfl]
      rfl
    · rw [if_neg hk, if_neg (Ne.symm hk)]
      exact congrArg (Option.map Prod.snd) Option.or_none

/-- No key comes twice. -/
theorem Options.keys_set (h : (opts.map Prod.fst).Nodup) : ((opts.set k x).map Prod.fst).Nodup := by
  have hkey : ∀ a : Text × Text, a.1 = k → (k, x).1 = k := fun _ _ => rfl
  unfold Options.set
  split
  · rwa [Chain.keys_update hkey]
  · next hnew =>
    rw [Chain.search_isSome] at hnew
    rw [map_append, nodup_append]
    refine ⟨h, nodup_singleton _, fun a ha b hb hab => hnew ?_⟩
    have hb : b = k := mem_singleton.mp hb
    rw [← hb, ← hab]
    exact ha

/-- One assignment after the other. -/
def optionsOf (l : List (Text × Text)) : Options :=
  l.foldl (fun opts kx => Options.set opts (lower kx.1) kx.2) []

/-- The dictionary of some pairs: one entry a key, with the value that came last. -/
theorem optionsOf_spec (l : List (Text × Text)) :
    ((optionsOf l).map Prod.fst).Nodup ∧
      ∀ k, (optionsOf l).get k = (l.reverse.find? fun kx => lower kx.1 = k).map Prod.snd := by
  unfold optionsOf
  induction l using List.reverseRecOn with
  | nil => exact ⟨nodup_nil, fun _ => rfl⟩
  | append_singleton l kx ih =>
    rw [foldl_append, foldl_cons, foldl_nil, reverse_append, reverse_singleton,
      singleton_append]
    refine ⟨Options.keys_set ih.1, fun k => ?_⟩
    rw [Options.get_set, List.find?_cons]
    by_cases hk : k = lower kx.1
    · simp [hk]
    · rw [if_neg hk, ih.2]
      simp [Ne.symm hk]

end Options

/-! ### The loop over the options -/

/-- The fields two by two; one without a partner is left out. -/
def pairs : List Text → List (Text × Text)
  | k :: x :: rest => (k, x) :: pairs rest
  | _ => []

theorem evens_succ (n : ℕ) : ((List.range (n + 1)).filter fun i => i % 2 = 0) =
    0 :: ((List.range (n - 1)).filter fun i => i % 2 = 0).map (· + 2) := by
  cases n with
  | zero => rfl
  | succ n =>
    rw [range_succ_eq_map, range_succ_eq_map, map_cons, map_map]
    rw [filter_cons_of_pos (by simp), filter_cons_of_neg (by simp), filter_map]
    refine congrArg (fun l => 0 :: List.map (· + 2) l) (filter_congr fun i _ => ?_)
    rw [Function.comp_apply, Function.comp_apply, decide_eq_decide]
    omega

theorem parseOpts_eq (rest : List Text) : parseOpts rest = optionsOf (pairs rest) := by
  unfold parseOpts optionsOf
  generalize ([] : Options) = opts
  -- two fields a turn
  induction rest using pairs.induct generalizing opts with
  | case1 k x rest ih =>
    have hlength : (k :: x :: rest).length - 1 = rest.length + 1 := rfl
    rw [hlength, evens_succ, foldl_cons, foldl_map, pairs, foldl_cons]
    exact ih _
  | case2 rest hshort =>
    rcases rest with _ | ⟨k, _ | ⟨x, rest⟩⟩
    · rfl
    · rfl
    · exact absurd rfl (hshort k x rest)

theorem pairs_append {l : List (Text × Text)} (last : List Text) (hlast : pairs last = []) :
    pairs ((l.flatMap fun kx => [kx.1, kx.2]) ++ last) = l := by
  induction l with
  | nil => exact hlast
  | cons kx l ih =>
    rw [flatMap_cons, append_assoc, cons_append, cons_append, pairs, nil_append, ih]

/-! ### Encoding -/

/-- A text that a request can carry: not empty, without NUL, of latin-1 characters. -/
structure Field where
  text : Text
  nonempty : text ≠ []
  nulFree : ∀ c ∈ text, c.toNat ≠ 0
  latin1 : ∀ c ∈ text, c.toNat < 256

def Field.bytes (f : Field) : Datagram := encodeLatin1 f.text

/-- The request of RFC 1350 with the options of RFC 2347. -/
def encodeRequest (filename mode : Field) (opts : List (Field × Field)) : Datagram :=
  filename.bytes ++ 0 :: (mode.bytes ++ 0 :: opts.flatMap fun kx => kx.1.bytes ++ 0 :: (kx.2.bytes ++ [0]))

theorem decode_bytes (f : Field) : decodeLatin1 f.bytes = f.text := by
  unfold decodeLatin1 Field.bytes encodeLatin1
  rw [map_map]
  refine (map_congr_left fun c hc => ?_).trans (map_id f.text)
  have hsmall : (UInt8.ofNat c.toNat).toNat = c.toNat := UInt8.toNat_ofNat_of_lt' (f.latin1 c hc)
  rw [Function.comp_apply, hsmall, Char.ofNat_toNat, id]

theorem zero_notMem_bytes (f : Field) : 0 ∉ f.bytes := by
  intro hmem
  obtain ⟨c, hc, hzero⟩ := mem_map.mp hmem
  have hsmall : (UInt8.ofNat c.toNat).toNat = c.toNat := UInt8.toNat_ofNat_of_lt' (f.latin1 c hc)
  rw [hzero] at hsmall
  exact f.nulFree c hc hsmall.symm

/-- What the fields are of bytes without NUL. -/
theorem fields_bytes (f : Field) : fields f.bytes = [f.text] := by
  unfold fields
  rw [splitOn_eq_singleton (zero_notMem_bytes f), map_singleton, decode_bytes]
  exact filter_cons_of_pos (by simpa using f.nonempty)

theorem fields_nil : fields [] = [] := rfl

/-- NUL ends a field. -/
theorem fields_append (a b : Datagram) : fields (a ++ 0 :: b) = fields a ++ fields b := by
  unfold fields
  rw [splitOn_append_cons_self, map_append, filter_append]

theorem fields_encodeRequest (filename mode : Field) (opts : List (Field × Field)) (last : Datagram) :
    fields (encodeRequest filename mode opts ++ last) = filename.text :: mode.text ::
      (((opts.map fun kx => (kx.1.text, kx.2.text)).flatMap fun kx => [kx.1, kx.2]) ++ fields last) := by
  have hopts : fields ((opts.flatMap fun kx => kx.1.bytes ++ 0 :: (kx.2.bytes ++ [0])) ++ last) =
      ((opts.map fun kx => (kx.1.text, kx.2.text)).flatMap fun kx => [kx.1, kx.2]) ++ fields last := by
    induction opts with
    | nil => rfl
    | cons kx opts ih =>
      rw [flatMap_cons, map_cons, flatMap_cons]
      simp only [append_assoc, cons_append, nil_append]
      rw [fields_append, fields_append, fields_bytes, fields_bytes, ih]
      rfl
  unfold encodeRequest
  simp only [append_assoc, cons_append]
  rw [fields_append, fields_append, fields_bytes, fields_bytes, hopts]
  rfl

theorem parseRrq_of_fields {payload : Datagram} {filename mode : Text} {rest : List Text}
    (h : fields payload = filename :: mode :: rest) :
    parseRrq payload = (some filename, some (lower mode), optionsOf (pairs rest)) := by
  have hlength : ¬(filename :: mode :: rest).length < 2 := by simp
  unfold parseRrq
  rw [h]
  simp only [if_neg hlength, parseOpts_eq]
  rfl

theorem parseRrq_encodeRequest (filename mode : Field) (opts : List (Field × Field)) (last : Datagram)
    (hlast : pairs (fields last) = []) :
    parseRrq (encodeRequest filename mode opts ++ last) = (some filename.text, some (lower mode.text),
      optionsOf (opts.map fun kx => (kx.1.text, kx.2.text))) := by
  rw [parseRrq_of_fields (fields_encodeRequest filename mode opts last), pairs_append _ hlast]

/-- A request that is encoded is read back, also with a field too many at its end; what has fewer than two
    fields is malformed; and the two tools read alike. -/
theorem request_round_trip :
    (∀ (filename mode : Field) (opts : List (Field × Field)), ∃ dict : Options,
      parseRrq (encodeRequest filename mode opts) = (some filename.text, some (lower mode.text), dict) ∧
      (dict.map Prod.fst).Nodup ∧
      (∀ k, dict.get k =
        (opts.reverse.find? fun kx => lower kx.1.text = k).map fun kx => kx.2.text) ∧
      (∀ last : Field,
        parseRrq (encodeRequest filename mode opts ++ last.bytes) =
          parseRrq (encodeRequest filename mode opts) ∧
        parseRrq (encodeRequest filename mode opts ++ (last.bytes ++ [0])) =
          parseRrq (encodeRequest filename mode opts))) ∧
    (∀ payload, parseRrq payload = (none, none, []) ↔
      ((payload.splitOn 0).filter fun p => p ≠ []).length < 2) ∧
    (∀ payload, parseRq payload = parseRrq payload) := by
  refine ⟨fun filename mode opts => ?_, fun payload => ?_, fun _ => rfl⟩
  · have hparse := parseRrq_encodeRequest filename mode opts [] rfl
    rw [append_nil] at hparse
    obtain ⟨hkeys, hget⟩ := optionsOf_spec (opts.map fun kx => (kx.1.text, kx.2.text))
    refine ⟨_, hparse, hkeys, fun k => ?_, fun last => ?_⟩
    · rw [hget, ← map_reverse, List.find?_map, Option.map_map]
      rfl
    · -- one field has no partner, with or without its NUL
      have hended : fields (last.bytes ++ [0]) = [last.text] := by
        rw [fields_append, fields_bytes, fields_nil, append_nil]
      rw [hparse]
      constructor
      · exact parseRrq_encodeRequest filename mode opts _ (congrArg pairs (fields_bytes last))
      · exact parseRrq_encodeRequest filename mode opts _ (congrArg pairs hended)
  · have hlength : (fields payload).length = ((payload.splitOn 0).filter fun p => p ≠ []).length := by
      unfold fields
      rw [filter_map, length_map]
      refine congrArg List.length (filter_congr fun p _ => ?_)
      simp [decodeLatin1]
    rw [← hlength]
    unfold parseRrq
    simp only
    split
    · next h => exact ⟨fun _ => h, fun _ => rfl⟩
    · next h =>
      have hsome : ∀ (x y : Text) (opts : Options), (some x, some y, opts) ≠ (none, none, []) := nofun
      exact ⟨fun hnone => absurd hnone (hsome _ _ _), fun hlt => absurd hlt h⟩

end PhoebusBsp.Tftp
