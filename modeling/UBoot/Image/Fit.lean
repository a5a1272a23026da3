/-
# FIT images and their hashes

`fit_check_format`, `fit_image_get_data`, `fit_image_get_load` and `fit_image_check_hashes`
of `common/image.c`. A FIT is what libfdt makes of the bytes in memory: a sequence of tags in
which nodes begin and end, up to the first tag that is the last one or cannot be read. An
offset of a node is what follows its first tag, and the loops walk from node to node with the
depth that `fdt_next_node` counts.
-/

import UBoot.Image.Multi
import UBoot.LibGeneric.Strtoul
import UBoot.Lib.Spans

namespace UBoot.Image

/-- A property: its name, and where its value is. -/
structure FdtProperty where
  name : List Byte
  ptr : BitVec 32
  len : Nat
  deriving DecidableEq

/-- A node without its subnodes. -/
structure FdtNode where
  name : List Byte
  properties : List FdtProperty
  deriving DecidableEq

/-- `FDT_BEGIN_NODE` with the properties that follow it, and `FDT_END_NODE` -/
inductive FdtTag
  | begin_node (node : FdtNode)
  | end_node
  deriving DecidableEq

/-- A node with what follows its first tag. -/
structure FdtPlace where
  node : FdtNode
  rest : List FdtTag
  deriving DecidableEq

/-- The memory that holds the FIT. -/
abbrev Ram := BitVec 32 → Byte

/-! ## libfdt -/

/-- `fdt_getprop` -/
def FdtNode.getprop (node : FdtNode) (name : List Byte) : Option FdtProperty :=
  node.properties.find? (·.name = name)

/-- `fdt_next_node`, with the new depth. It returns no offset when there is none, or when the
depth becomes negative. -/
def fdt_next_node : List FdtTag → Int → Option (FdtPlace × Int)
  | [], _ => none
  | .begin_node node :: tags, depth => some (⟨node, tags⟩, depth + 1)
  | .end_node :: tags, depth => if depth - 1 < 0 then none else fdt_next_node tags (depth - 1)

theorem length_fdt_next_node {tags : List FdtTag} {depth ndepth : Int} {place : FdtPlace}
    (h : fdt_next_node tags depth = some (place, ndepth)) : place.rest.length < tags.length := by
  induction tags generalizing depth with
  | nil => cases h
  | cons tag tags ih =>
      cases tag with
      | begin_node node =>
          cases h
          exact Nat.lt_succ_self _
      | end_node =>
          rw [fdt_next_node] at h
          split at h
          · cases h
          · exact (ih h).trans (Nat.lt_succ_self _)

/-- The rounds of a loop `while (noffset >= 0 && ndepth > 0)` that goes on to the next node:
the nodes with their depths. -/
def visits (tags : List FdtTag) (depth : Int) : List (FdtPlace × Int) :=
  match _h : fdt_next_node tags depth with
  | none => []
  | some (place, ndepth) =>
      if ndepth > 0 then (place, ndepth) :: visits place.rest ndepth else []
termination_by tags.length
decreasing_by exact length_fdt_next_node (by assumption)

/-! ## Hashes -/

/-- `FIT_MAX_HASH_LEN` bounds what these return. -/
structure Digests where
  sha1 : List Byte → Vector Byte 20
  md5 : List Byte → Vector Byte 16

/-- The bytes of a value. -/
def bytesAt (ram : Ram) (ptr : BitVec 32) (len : Nat) : List Byte :=
  (List.range len).map fun i => ram (ptr + BitVec.ofNat 32 i)

/-- `strcmp (algo, s) == 0` -/
def hasString (ram : Ram) (ptr : BitVec 32) (s : List Byte) : Bool :=
  decide (bytesAt ram ptr (s.length + 1) = s ++ [0#8])

/-- `calculate_hash`, with the name of the algorithm at `algo`. -/
def calculate_hash (digests : Digests) (ram : Ram) (data : List Byte) (algo : BitVec 32) :
    Option (List Byte) :=
  if hasString ram algo (ascii "crc32") then some (cpu_to_uimage (crc32 0 data))
  else if hasString ram algo (ascii "sha1") then some (digests.sha1 data).toList
  else if hasString ram algo (ascii "md5") then some (digests.md5 data).toList
  else none

/-- `fit_image_get_data` -/
def fit_image_get_data (image : FdtNode) : Option FdtProperty := image.getprop (ascii "data")

/-- `fit_image_get_load`, which does not look at the length. -/
def fit_image_get_load (ram : Ram) (image : FdtNode) : Option (BitVec 32) :=
  (image.getprop (ascii "load")).map fun load =>
    uimage_to_cpu (fun a => ram (BitVec.ofNat 32 a)) load.ptr.toNat

/-- `fit_image_hash_get_algo` -/
def fit_image_hash_get_algo (hash : FdtNode) : Option FdtProperty := hash.getprop (ascii "algo")

/-- `fit_image_hash_get_value` -/
def fit_image_hash_get_value (hash : FdtNode) : Option FdtProperty := hash.getprop (ascii "value")

/-- `strncmp (fit_get_name (fit, noffset, NULL), FIT_HASH_NODENAME, 4) == 0` -/
def FdtNode.isHash (node : FdtNode) : Bool := decide (node.name.take 4 = ascii "hash")

/-- The checks of a hash node. -/
def hashMatches (digests : Digests) (ram : Ram) (data : List Byte) (hash : FdtNode) : Bool :=
  match fit_image_hash_get_algo hash with
  | none => false
  | some algo =>
      match fit_image_hash_get_value hash with
      | none => false
      | some fit_value =>
          match calculate_hash digests ram data algo.ptr with
          | none => false
          | some value =>
              if value.length ≠ fit_value.len then false
              else decide (value = bytesAt ram fit_value.ptr value.length)

/-- The loop of `fit_image_check_hashes`. -/
def checkHashes (digests : Digests) (ram : Ram) (data : List Byte) : List (FdtPlace × Int) → Bool
  | [] => true
  | (place, ndepth) :: rounds =>
      if ndepth = 1 then
        if !place.node.isHash then checkHashes digests ram data rounds
        else if hashMatches digests ram data place.node then checkHashes digests ram data rounds
        else false
      else checkHashes digests ram data rounds

/-- `fit_image_check_hashes` -/
def fit_image_check_hashes (digests : Digests) (ram : Ram) (image : FdtPlace) : Bool :=
  match fit_image_get_data image.node with
  | none => false
  | some data => checkHashes digests ram (bytesAt ram data.ptr data.len) (visits image.rest 0)

/-- A FIT: its root, and the node `/images`, when `fdt_path_offset` finds it. -/
structure FitBlob where
  root : FdtNode
  images : Option (List FdtTag)

/-- `fit_check_format`. A time stamp is needed with `CONFIG_TIMESTAMP` or
`CONFIG_CMD_DATE`. -/
def fit_check_format (CONFIG_TIMESTAMP : Bool) (fit : FitBlob) : Bool :=
  if (fit.root.getprop (ascii "description")).isNone then false
  else if CONFIG_TIMESTAMP && (fit.root.getprop (ascii "timestamp")).isNone then false
  else fit.images.isSome

/-! ## What is meant -/

/-- The nodes that are directly in a node, from inside of `depth` nodes in it on. -/
def childrenAt : Nat → List FdtTag → List FdtPlace
  | _, [] => []
  | 0, .begin_node node :: tags => ⟨node, tags⟩ :: childrenAt 1 tags
  | depth + 1, .begin_node _ :: tags => childrenAt (depth + 2) tags
  | 0, .end_node :: _ => []
  | depth + 1, .end_node :: tags => childrenAt depth tags

/-- The nodes that are directly in a node. -/
def FdtPlace.children (place : FdtPlace) : List FdtPlace := childrenAt 0 place.rest

/-- The hash nodes of an image. -/
def FdtPlace.hashes (image : FdtPlace) : List FdtNode :=
  (image.children.map (·.node)).filter (·.isHash)

/-- An image has a hash node, and all hash values match its data. -/
def Verified (digests : Digests) (ram : Ram) (image : FdtPlace) : Prop :=
  ∃ data, fit_image_get_data image.node = some data ∧ image.hashes ≠ [] ∧
    ∀ hash ∈ image.hashes, hashMatches digests ram (bytesAt ram data.ptr data.len) hash = true

/-! ## The walk -/

theorem visits_eq (tags : List FdtTag) (depth : Int) :
    visits tags depth = match fdt_next_node tags depth with
      | none => []
      | some (place, ndepth) =>
          if ndepth > 0 then (place, ndepth) :: visits place.rest ndepth else [] := by
  rw [visits]
  split <;> simp_all

theorem visits_nil (depth : Int) : visits [] depth = [] := by
  rw [visits_eq, fdt_next_node]

theorem visits_begin (node : FdtNode) (tags : List FdtTag) (depth : Nat) :
    visits (.begin_node node :: tags) depth =
      (⟨node, tags⟩, ((depth + 1 : Nat) : Int)) :: visits tags ((depth + 1 : Nat) : Int) := by
  rw [visits_eq, fdt_next_node]
  exact if_pos (by omega)

theorem visits_end (tags : List FdtTag) (depth : Nat) :
    visits (.end_node :: tags) depth =
      match depth with
      | 0 => []
      | depth + 1 => visits tags depth := by
  rw [visits_eq, fdt_next_node]
  cases depth with
  | zero => rw [if_pos (by omega)]
  | succ depth =>
      rw [if_neg (by omega), show ((depth + 1 : Nat) : Int) - 1 = depth by omega]
      exact (visits_eq tags depth).symm

/-- The rounds at depth 1 are for the nodes directly in the node. -/
theorem visits_children (tags : List FdtTag) (depth : Nat) :
    ((visits tags depth).filter (·.2 = 1)).map (·.1) = childrenAt depth tags := by
  induction tags generalizing depth with
  | nil =>
      rw [visits_nil, childrenAt]
      rfl
  | cons tag tags ih =>
      cases tag with
      | begin_node node =>
          rw [visits_begin]
          cases depth with
          | zero =>
              rw [List.filter_cons_of_pos (by simp), List.map_cons, ih]
              rfl
          | succ depth =>
              rw [List.filter_cons_of_neg (by simp; omega), ih]
              rfl
      | end_node =>
          rw [visits_end]
          cases depth with
          | zero => rfl
          | succ depth => exact ih depth

/-- The loop over the hash nodes checks those that are directly in the image. -/
theorem checkHashes_iff (digests : Digests) (ram : Ram) (data : List Byte)
    (rounds : List (FdtPlace × Int)) :
    checkHashes digests ram data rounds = true ↔
      ∀ round ∈ rounds, round.2 = 1 → round.1.node.isHash = true →
        hashMatches digests ram data round.1.node = true := by
  induction rounds with
  | nil => simp [checkHashes]
  | cons round rounds ih =>
      rw [checkHashes, List.forall_mem_cons]
      split
      · next hdepth =>
          cases hhash : round.1.node.isHash with
          | false => simp [ih]
          | true =>
              cases hmatch : hashMatches digests ram data round.1.node with
              | false => simp [hdepth]
              | true => simp [ih]
      · next hdepth => simp [hdepth, ih]

theorem fit_image_check_hashes_iff {digests : Digests} {ram : Ram} {image : FdtPlace} :
    fit_image_check_hashes digests ram image = true ↔
      ∃ data, fit_image_get_data image.node = some data ∧
        ∀ hash ∈ image.hashes,
          hashMatches digests ram (bytesAt ram data.ptr data.len) hash = true := by
  rw [fit_image_check_hashes]
  cases fit_image_get_data image.node with
  | none => simp
  | some data =>
      simp only [Option.some.injEq, exists_eq_left', checkHashes_iff, FdtPlace.hashes,
        FdtPlace.children, ← visits_children, List.mem_filter, List.mem_map, decide_eq_true_eq]
      constructor
      · rintro h hash ⟨⟨_, ⟨round, ⟨hround, hdepth⟩, rfl⟩, rfl⟩, hhash⟩
        exact h round hround hdepth hhash
      · intro h round hround hdepth hhash
        exact h _ ⟨⟨_, ⟨round, ⟨hround, hdepth⟩, rfl⟩, rfl⟩, hhash⟩

/-- An image that passes the check is verified, or has no hash node. -/
theorem verified_iff {digests : Digests} {ram : Ram} {image : FdtPlace} :
    Verified digests ram image ↔
      fit_image_check_hashes digests ram image = true ∧ image.hashes ≠ [] := by
  rw [fit_image_check_hashes_iff]
  constructor
  · rintro ⟨data, hdata, hhashes, hall⟩
    exact ⟨⟨data, hdata, hall⟩, hhashes⟩
  · rintro ⟨⟨data, hdata, hall⟩, hhashes⟩
    exact ⟨data, hdata, hhashes, hall⟩

end UBoot.Image
