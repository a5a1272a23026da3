/-
# Updates over the network

`update_fit_getparams` and `update_tftp` of `common/update.c`. The image nodes of a FIT are
checked and flashed one after the other. The environment, the download, the hash functions and
libfdt are parameters, and the drivers can answer differently in each round of the loop.
-/

import UBoot.Flash.UpdateTouches
import UBoot.Image.Fit

namespace UBoot.Image

open Flash

/-- What `update_fit_getparams` returns. -/
structure UpdateParams where
  addr : BitVec 32
  fladdr : BitVec 32
  size : BitVec 32
  deriving DecidableEq

/-- `update_fit_getparams` -/
def update_fit_getparams (ram : Ram) (image : FdtNode) : Option UpdateParams :=
  match fit_image_get_data image with
  | none => none
  | some data =>
      match fit_image_get_load ram image with
      | none => none
      | some fladdr => some ⟨data.ptr, fladdr, BitVec.ofNat 32 data.len⟩

/-- The loop of `update_tftp` from a round on: the banks, and what is touched, each with the
node that is processed. -/
def updateLoop (digests : Digests) (ram : Ram) (drivers : Nat → Drivers) :
    Nat → List (FdtPlace × Int) → List FlashInfo → List FlashInfo × List (FdtPlace × Touch)
  | _, [], flash_info => (flash_info, [])
  | round, (image, ndepth) :: rounds, flash_info =>
      if ndepth ≠ 1 then updateLoop digests ram drivers (round + 1) rounds flash_info
      else if !fit_image_check_hashes digests ram image then
        updateLoop digests ram drivers (round + 1) rounds flash_info
      else
        match update_fit_getparams ram image.node with
        | none => updateLoop digests ram drivers (round + 1) rounds flash_info
        | some params =>
            let flashed := update_flash (drivers round) flash_info params.addr params.fladdr params.size
            let rest := updateLoop digests ram drivers (round + 1) rounds flashed.flash_info
            (rest.1, flashed.touches.map (image, ·) ++ rest.2)

/-- What `update_tftp` runs with. A download that succeeds leaves memory with the file in
it. -/
structure UpdateSetup where
  digests : Digests
  CONFIG_TIMESTAMP : Bool
  CONFIG_UPDATE_LOAD_ADDR : BitVec 32
  getenv : List Byte → Option (List Byte)
  update_load : List Byte → BitVec 32 → Option Ram
  libfdt : Ram → BitVec 32 → FitBlob

/-- The part of `update_tftp` in front of the loop: the memory and the update file. -/
def update_file (setup : UpdateSetup) : Option (Ram × FitBlob) :=
  match setup.getenv (ascii "updatefile") with
  | none => none
  | some filename =>
      let addr := match setup.getenv (ascii "loadaddr") with
        | some env_addr => (simple_strtoul env_addr 16).1
        | none => setup.CONFIG_UPDATE_LOAD_ADDR
      match setup.update_load filename addr with
      | none => none
      | some ram =>
          let fit := setup.libfdt ram addr
          if fit_check_format setup.CONFIG_TIMESTAMP fit then some (ram, fit) else none

/-- `update_tftp` -/
def update_tftp (setup : UpdateSetup) (drivers : Nat → Drivers) (flash_info : List FlashInfo) :
    List FlashInfo × List (FdtPlace × Touch) :=
  match update_file setup with
  | none => (flash_info, [])
  | some (ram, fit) =>
      match fit.images with
      | none => (flash_info, [])
      | some images => updateLoop setup.digests ram drivers 0 (visits images 0) flash_info

/-! ## What is meant -/

/-- The memory, and the nodes directly in `/images` of an update file that is accepted. -/
def UpdateSetup.images (setup : UpdateSetup) : Option (Ram × List FdtPlace) :=
  match update_file setup with
  | none => none
  | some (ram, fit) => fit.images.map fun images => (ram, childrenAt 0 images)

/-- The sectors that have a byte of the target of a verified image. -/
def verifiedTargets (digests : Digests) (ram : Ram) (flash_info : List FlashInfo)
    (images : List FdtPlace) : Set Nat :=
  { x | ∃ image ∈ images, Verified digests ram image ∧
    ∃ params, update_fit_getparams ram image.node = some params ∧
      x ∈ sectorsOf flash_info params.fladdr params.size }

/-- Nothing is touched but targets of verified images, and nothing for another image or for one
whose parameters cannot be read. -/
def FlashesVerified (setup : UpdateSetup) (flash_info : List FlashInfo) : Prop :=
  ∀ drivers, ∀ touched ∈ (update_tftp setup drivers flash_info).2, ∀ x ∈ touched.2.addresses,
    ∃ ram images, setup.images = some (ram, images) ∧ touched.1 ∈ images ∧
      Verified setup.digests ram touched.1 ∧
      (update_fit_getparams ram touched.1.node).isSome = true ∧
      x ∈ verifiedTargets setup.digests ram flash_info images

/-- An image that passes the check and has parameters: without a hash node nothing is to be
erased for it, and where the banks are followed around the end of the address space, that is in
targets of verified images. -/
def NoUnverified (setup : UpdateSetup) (flash_info : List FlashInfo) : Prop :=
  ∀ ram images, setup.images = some (ram, images) → ∀ image ∈ images,
    fit_image_check_hashes setup.digests ram image = true →
      ∀ params, update_fit_getparams ram image.node = some params →
        (image.hashes = [] → toErase flash_info params.fladdr params.size = ∅) ∧
        (FollowedAround flash_info params.fladdr params.size →
          toErase flash_info params.fladdr params.size ⊆
            verifiedTargets setup.digests ram flash_info images)

/-! ## The loop -/

section Loop

variable {digests : Digests} {ram : Ram} {flash_info : List FlashInfo}

/-- An image is flashed. -/
def Processed (digests : Digests) (ram : Ram) (image : FdtPlace) (params : UpdateParams) : Prop :=
  fit_image_check_hashes digests ram image = true ∧
    update_fit_getparams ram image.node = some params

theorem updateLoop_processed {drivers : Nat → Drivers} {round : Nat} {image : FdtPlace}
    {params : UpdateParams} {rounds : List (FdtPlace × Int)} {banks : List FlashInfo}
    (h : Processed digests ram image params) :
    (updateLoop digests ram drivers round ((image, 1) :: rounds) banks).2 =
      (update_flash (drivers round) banks params.addr params.fladdr params.size).touches.map
          (image, ·) ++
        (updateLoop digests ram drivers (round + 1) rounds
          (update_flash (drivers round) banks params.addr params.fladdr params.size).flash_info).2 := by
  rw [updateLoop, if_neg (by decide), h.1, if_neg (by decide), h.2]

theorem updateLoop_skipped {drivers : Nat → Drivers} {round : Nat} {image : FdtPlace} {ndepth : Int}
    {rounds : List (FdtPlace × Int)} {banks : List FlashInfo}
    (h : ¬ (ndepth = 1 ∧ ∃ params, Processed digests ram image params)) :
    (updateLoop digests ram drivers round ((image, ndepth) :: rounds) banks).2 =
      (updateLoop digests ram drivers (round + 1) rounds banks).2 := by
  rw [updateLoop]
  split
  · rfl
  · next hdepth =>
      split
      · rfl
      · next hcheck =>
          split
          · rfl
          · next params hparams =>
              exact absurd ⟨not_not.mp hdepth, params, by simpa using hcheck, hparams⟩ h

/-- What is touched is to be erased for an image that is flashed. -/
theorem mem_updateLoop (apart : Apart flash_info) {drivers : Nat → Drivers} {round : Nat}
    {rounds : List (FdtPlace × Int)} {banks : List FlashInfo} {touched : FdtPlace × Touch}
    (hbare : bare banks = bare flash_info)
    (h : touched ∈ (updateLoop digests ram drivers round rounds banks).2) :
    (touched.1, 1) ∈ rounds ∧ ∃ params, Processed digests ram touched.1 params ∧
      touched.2.addresses ⊆ toErase flash_info params.fladdr params.size := by
  induction rounds generalizing round banks with
  | nil => cases h
  | cons entry rounds ih =>
      obtain ⟨image, ndepth⟩ := entry
      by_cases hround : ndepth = 1 ∧ ∃ params, Processed digests ram image params
      · obtain ⟨rfl, params, hparams⟩ := hround
        rw [updateLoop_processed hparams, List.mem_append] at h
        rcases h with h | h
        · obtain ⟨t, ht, rfl⟩ := List.mem_map.mp h
          refine ⟨List.mem_cons_self, params, hparams, ?_⟩
          rw [← toErase_congr hbare]
          exact touches_subset (Apart.congr hbare apart) _ _ _ _ ht
        · obtain ⟨hmem, hrest⟩ := ih (hbare ▸ update_flash_bare ..) h
          exact ⟨List.mem_cons_of_mem _ hmem, hrest⟩
      · rw [updateLoop_skipped hround] at h
        obtain ⟨hmem, hrest⟩ := ih hbare h
        exact ⟨List.mem_cons_of_mem _ hmem, hrest⟩

/-- With drivers that report no error, what is to be erased is touched. -/
theorem touched_of_processed (round : Nat) {rounds : List (FdtPlace × Int)} {banks : List FlashInfo}
    {image : FdtPlace} {params : UpdateParams} {x : Nat} (hbare : bare banks = bare flash_info)
    (hmem : (image, 1) ∈ rounds) (hparams : Processed digests ram image params)
    (hx : x ∈ toErase flash_info params.fladdr params.size) :
    ∃ touched ∈ (updateLoop digests ram (fun _ => Drivers.quiet) round rounds banks).2,
      touched.1 = image ∧ x ∈ touched.2.addresses := by
  induction rounds generalizing round banks with
  | nil => cases hmem
  | cons entry rounds ih =>
      rcases List.mem_cons.mp hmem with rfl | hrest
      · rw [← toErase_congr hbare] at hx
        obtain ⟨t, ht, hxt⟩ := touched_of_quiet params.addr params.fladdr params.size hx
        rw [updateLoop_processed hparams]
        exact ⟨_, List.mem_append_left _ (List.mem_map_of_mem ht), rfl, hxt⟩
      · obtain ⟨other, ndepth⟩ := entry
        by_cases hround : ndepth = 1 ∧ ∃ params, Processed digests ram other params
        · obtain ⟨rfl, params', hparams'⟩ := hround
          rw [updateLoop_processed hparams']
          obtain ⟨touched, htouched, h⟩ := ih (round + 1) (hbare ▸ update_flash_bare ..) hrest
          exact ⟨touched, List.mem_append_right _ htouched, h⟩
        · rw [updateLoop_skipped hround]
          exact ih (round + 1) hbare hrest

end Loop

/-! ## The result -/

theorem mem_rounds {tags : List FdtTag} {image : FdtPlace} :
    (image, 1) ∈ visits tags 0 ↔ image ∈ childrenAt 0 tags := by
  rw [← visits_children, List.mem_map]
  constructor
  · intro h
    exact ⟨(image, 1), List.mem_filter.mpr ⟨h, decide_eq_true rfl⟩, rfl⟩
  · rintro ⟨⟨image', ndepth⟩, h, rfl⟩
    obtain ⟨hmem, hdepth⟩ := List.mem_filter.mp h
    obtain rfl : ndepth = 1 := of_decide_eq_true hdepth
    exact hmem

/-- An update file that is accepted is processed with the nodes directly in `/images`. -/
theorem images_cases (setup : UpdateSetup) :
    (setup.images = none ∧ ∀ drivers flash_info, (update_tftp setup drivers flash_info).2 = []) ∨
      ∃ ram tags, setup.images = some (ram, childrenAt 0 tags) ∧
        ∀ drivers flash_info, update_tftp setup drivers flash_info =
          updateLoop setup.digests ram drivers 0 (visits tags 0) flash_info := by
  unfold UpdateSetup.images update_tftp
  cases update_file setup with
  | none => exact Or.inl ⟨rfl, fun _ _ => rfl⟩
  | some file =>
      obtain ⟨ram, root, images⟩ := file
      cases images with
      | none => exact Or.inl ⟨rfl, fun _ _ => rfl⟩
      | some tags => exact Or.inr ⟨ram, tags, rfl, fun _ _ => rfl⟩

/-- Without errors of the drivers, what is to be erased for an image is touched, so that the
image has to be verified. -/
theorem FlashesVerified.of_processed {setup : UpdateSetup} {flash_info : List FlashInfo} {ram : Ram}
    {images : List FdtPlace} {image : FdtPlace} {params : UpdateParams} {x : Nat}
    (verified : FlashesVerified setup flash_info) (himages : setup.images = some (ram, images))
    (himage : image ∈ images) (hparams : Processed setup.digests ram image params)
    (hx : x ∈ toErase flash_info params.fladdr params.size) :
    Verified setup.digests ram image ∧ x ∈ verifiedTargets setup.digests ram flash_info images := by
  rcases images_cases setup with ⟨hnone, -⟩ | ⟨ram', tags, hsome, hloop⟩
  · rw [hnone] at himages
    cases himages
  · obtain ⟨rfl, rfl⟩ := Prod.mk.inj (Option.some.inj (hsome.symm.trans himages))
    obtain ⟨touched, htouched, rfl, hxt⟩ :=
      touched_of_processed 0 rfl (mem_rounds.mpr himage) hparams hx
    rw [← hloop] at htouched
    obtain ⟨ram', images', heq, -, hverified, -, htarget⟩ := verified _ touched htouched x hxt
    obtain ⟨rfl, rfl⟩ := Prod.mk.inj (Option.some.inj (himages.symm.trans heq))
    exact ⟨hverified, htarget⟩

/-- The update flashes verified data only, exactly when images without hash nodes have nothing
to erase, and banks behind the end of the address space are targets as well. -/
theorem update_tftp_flashes_verified (setup : UpdateSetup) {flash_info : List FlashInfo}
    (apart : Apart flash_info) :
    FlashesVerified setup flash_info ↔ NoUnverified setup flash_info := by
  constructor
  · intro verified ram images himages image himage hcheck params hparams
    have hall := fun x hx => verified.of_processed (x := x) himages himage ⟨hcheck, hparams⟩ hx
    constructor
    · intro hhashes
      apply Set.eq_empty_of_forall_notMem
      intro x hx
      exact (verified_iff.mp (hall x hx).1).2 hhashes
    · intro _ x hx
      exact (hall x hx).2
  · intro cond drivers touched htouched x hx
    rcases images_cases setup with ⟨-, hnone⟩ | ⟨ram, tags, himages, hloop⟩
    · rw [hnone] at htouched
      cases htouched
    · rw [hloop] at htouched
      obtain ⟨hmem, params, ⟨hcheck, hparams⟩, hsub⟩ := mem_updateLoop apart rfl htouched
      have himage := mem_rounds.mp hmem
      obtain ⟨hnohash, haround⟩ := cond ram _ himages touched.1 himage hcheck params hparams
      have hverified : Verified setup.digests ram touched.1 := by
        apply verified_iff.mpr
        refine ⟨hcheck, fun hhashes => ?_⟩
        have hempty := hsub hx
        rw [hnohash hhashes] at hempty
        exact hempty
      refine ⟨ram, _, himages, himage, hverified, by rw [hparams]; rfl, ?_⟩
      by_cases hfollowed : FollowedAround flash_info params.fladdr params.size
      · exact haround hfollowed (hsub hx)
      · exact ⟨touched.1, himage, hverified, params, hparams,
          toErase_subset apart hfollowed (hsub hx)⟩

/-! ## An update file with one image -/

/-- The bytes of the file that are looked at: the data, the load address, and the name and the
value of a hash. -/
def oneImageBytes : List Byte :=
  [0x00#8] ++ [0x10#8, 0x00#8, 0x00#8, 0x00#8] ++ ascii "crc32" ++ [0#8] ++
    [0xd2#8, 0x02#8, 0xef#8, 0x8d#8]

/-- The memory with the update file at its begin. -/
def oneImageRam : Ram := fun a => oneImageBytes.getD a.toNat 0#8

/-- An image of one byte for the address 0x10000000. -/
def oneImageNode : FdtNode := ⟨ascii "update", [⟨ascii "data", 0#32, 1⟩, ⟨ascii "load", 1#32, 4⟩]⟩

/-- An update file with that image, and these tags for the nodes in it. -/
def oneImage (nodes : List FdtTag) : UpdateSetup where
  digests := ⟨fun _ => Vector.replicate 20 0#8, fun _ => Vector.replicate 16 0#8⟩
  CONFIG_TIMESTAMP := false
  CONFIG_UPDATE_LOAD_ADDR := 0x100000#32
  getenv name := if name = ascii "updatefile" then some (ascii "update.itb") else none
  update_load _ _ := some oneImageRam
  libfdt _ _ :=
    { root := ⟨[], [⟨ascii "description", 0#32, 1⟩]⟩
      images := some (.begin_node oneImageNode :: nodes ++ [.end_node, .end_node]) }

/-- A hash node with the right value. -/
def crc32Node : FdtNode :=
  ⟨ascii "hash", [⟨ascii "algo", 5#32, 6⟩, ⟨ascii "value", 11#32, 4⟩]⟩

/-- The nodes of the update file are read. -/
theorem oneImage_file (nodes : List FdtTag) :
    update_file (oneImage nodes) = some (oneImageRam, (oneImage nodes).libfdt oneImageRam 0#32) := by
  have hname : (oneImage nodes).getenv (ascii "updatefile") = some (ascii "update.itb") := by
    simp [oneImage]
  rw [update_file, hname]
  rfl

theorem oneImage_images (nodes : List FdtTag) :
    (oneImage nodes).images =
      some (oneImageRam, childrenAt 0 (.begin_node oneImageNode :: nodes ++ [.end_node, .end_node])) := by
  rw [UpdateSetup.images, oneImage_file]
  rfl

/-- The target is one sector. -/
theorem oneImage_params :
    update_fit_getparams oneImageRam oneImageNode = some ⟨0#32, 0x10000000#32, 1#32⟩ := by
  decide

theorem update_tftp_flashes_verified_crc32 :
    FlashesVerified (oneImage [.begin_node crc32Node, .end_node])
      [twoSectors 0x10000000#32 (by decide)] := by
  apply (update_tftp_flashes_verified _ (List.pairwise_singleton ..)).mpr
  intro ram images himages image himage _ params hparams
  rw [oneImage_images, Option.some.injEq, Prod.mk.injEq] at himages
  have hram := himages.1
  have hnodes := himages.2
  subst hram
  subst hnodes
  have hone : image = ⟨oneImageNode, [.begin_node crc32Node, .end_node, .end_node, .end_node]⟩ :=
    List.mem_singleton.mp himage
  subst hone
  rw [oneImage_params, Option.some.injEq] at hparams
  subst hparams
  constructor
  · intro hhashes
    exact absurd (congrArg List.length hhashes) (by decide)
  · rintro ⟨hround, -⟩
    exact absurd hround (by decide)

/-- An image without hash nodes is flashed. -/
theorem not_update_tftp_flashes_verified :
    ¬ FlashesVerified (oneImage []) [twoSectors 0x10000000#32 (by decide)] := by
  intro verified
  have hcheck : fit_image_check_hashes (oneImage []).digests oneImageRam
      ⟨oneImageNode, [.end_node, .end_node]⟩ = true := by
    rw [fit_image_check_hashes_iff]
    exact ⟨⟨ascii "data", 0#32, 1⟩, by decide, fun hash hhash => absurd hhash List.not_mem_nil⟩
  have herase : 0x10000000 ∈ toErase [twoSectors 0x10000000#32 (by decide)] 0x10000000#32 1#32 := by
    apply mem_toErase.mpr
    refine ⟨0x10007fff#32, by decide, by decide, by decide, by decide, _, 0, 0, List.mem_cons_self, ?_⟩
    exact ⟨0, le_rfl, le_rfl, by decide, by decide⟩
  have himage : ⟨oneImageNode, [.end_node, .end_node]⟩ ∈
      childrenAt 0 (.begin_node oneImageNode :: [] ++ [.end_node, .end_node]) := List.mem_cons_self
  have hverified := (verified.of_processed (oneImage_images []) himage ⟨hcheck, oneImage_params⟩ herase).1
  exact (verified_iff.mp hverified).2 rfl

end UBoot.Image
