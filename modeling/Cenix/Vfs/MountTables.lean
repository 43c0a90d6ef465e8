import Cenix.Vfs.Rounds

namespace Cenix.Vfs

open Programs

/-! The mount points of a namespace, as `find_mount_point` goes through them. -/

/-- A mount point in a bucket, with its key. -/
structure Link where
  address : Nat
  inode : Nat
  enclosingFilesystem : Nat
  deriving DecidableEq, Repr

/-- The mount points from an address on. -/
inductive Chain (f : Place → Option Structure) : (address : Nat) → List Link → Prop where
  | nil : Chain f sizeMax []
  | cons {address id : Nat} {m : MountPoint} {links : List Link}
      (hplace : place address = .mountPoint id)
      (hmountPoint : f (.mountPoint id) = some (.mountPoint m))
      (hrest : Chain f m.next links) :
      Chain f address (⟨address, m.inode, m.enclosingFilesystem⟩ :: links)

/-- The root and the buckets of a namespace; where there is none it has no mount points. -/
structure Table where
  root : Nat
  buckets : Nat → Nat

def emptyTable : Table :=
  ⟨sizeMax, fun _ => sizeMax⟩

def tableOf : Option Structure → Table
  | some (.fsNamespace n) => ⟨n.rootAddress, n.mountPointAddresses⟩
  | _ => emptyTable

/-- The address of the first mount point with a key, or `SIZE_MAX`. -/
def firstWith (inode enclosing : Nat) (links : List Link) : Nat :=
  match links.find? fun l => l.inode == inode && l.enclosingFilesystem == enclosing with
  | some l => l.address
  | none => sizeMax

variable {f g : Place → Option Structure} {w w' : World} {links : List Link}
  {address inode enclosing fuel : Nat}

theorem place_ne_sizeMax {id : Nat} (hplace : place address = .mountPoint id) :
    address ≠ sizeMax := by
  rintro rfl
  cases hplace

theorem firstWith_cons {l : Link} : firstWith inode enclosing (l :: links) =
    if l.inode = inode ∧ l.enclosingFilesystem = enclosing then l.address
    else firstWith inode enclosing links := by
  rw [firstWith, List.find?_cons]
  by_cases h : l.inode = inode ∧ l.enclosingFilesystem = enclosing
  · have hkey : (l.inode == inode && l.enclosingFilesystem == enclosing) = true := by
      simpa using h
    rw [hkey, if_pos h]
  · have hkey : (l.inode == inode && l.enclosingFilesystem == enclosing) = false := by
      simpa using h
    rw [hkey, if_neg h]
    rfl

theorem Chain.unique {links' : List Link} (h : Chain f address links)
    (h' : Chain f address links') : links = links' := by
  induction h generalizing links' with
  | nil =>
      cases h' with
      | nil => rfl
      | cons hplace => cases hplace
  | cons hplace hmountPoint _ ih =>
      cases h' with
      | nil => cases hplace
      | cons hplace' hmountPoint' hrest' =>
          obtain rfl := Place.mountPoint.inj (hplace.symm.trans hplace')
          rw [hmountPoint] at hmountPoint'
          cases hmountPoint'
          rw [ih hrest']

/-- What a mount point has for the search. -/
structure SameLink (m m' : MountPoint) : Prop where
  inode : m'.inode = m.inode
  enclosingFilesystem : m'.enclosingFilesystem = m.enclosingFilesystem
  next : m'.next = m.next

/-- The mount points that are there stay in place. -/
def KeepsLinks (f g : Place → Option Structure) : Prop :=
  ∀ id m, f (.mountPoint id) = some (.mountPoint m) →
    ∃ m', g (.mountPoint id) = some (.mountPoint m') ∧ SameLink m m'

theorem KeepsLinks.refl : KeepsLinks f f :=
  fun _ m h => ⟨m, h, rfl, rfl, rfl⟩

theorem KeepsLinks.trans {h : Place → Option Structure} (hfg : KeepsLinks f g)
    (hgh : KeepsLinks g h) : KeepsLinks f h := by
  intro id m hm
  obtain ⟨m', hm', hsame⟩ := hfg id m hm
  obtain ⟨m'', hm'', hsame'⟩ := hgh id m' hm'
  exact ⟨m'', hm'', hsame'.inode.trans hsame.inode,
    hsame'.enclosingFilesystem.trans hsame.enclosingFilesystem, hsame'.next.trans hsame.next⟩

theorem KeepsLinks.of_eq (h : ∀ id, g (.mountPoint id) = f (.mountPoint id)) :
    KeepsLinks f g :=
  fun id m hm => ⟨m, (h id).trans hm, rfl, rfl, rfl⟩

theorem Chain.kept (h : Chain f address links) (hkeeps : KeepsLinks f g) :
    Chain g address links := by
  induction h with
  | nil => exact .nil
  | cons hplace hmountPoint _ ih =>
      obtain ⟨m', hm', hsame⟩ := hkeeps _ _ hmountPoint
      rw [← hsame.inode, ← hsame.enclosingFilesystem]
      exact .cons hplace hm' (hsame.next ▸ ih)

/-! `find_mount_point` -/

/-- What is known while locks are only taken and given up. -/
def Looks (f : Place → Option Structure) (w : World) : Prop :=
  Sees f w ∧ Grants [.findMountPoint] w.answers

theorem Looks.of_changes (h : Looks f w) (hchange : ChangesOnly nowhere w w') : Looks f w' :=
  ⟨h.1.of_changes hchange, hchange.answers ▸ h.2⟩

theorem looks_ensures {α : Type} {x : Vfs α} (hx : Touches nowhere x) :
    Ensures (Looks f) x fun _ => Looks f :=
  fun _ _ _ hw h => hw.of_changes (hx _ _ _ h)

theorem lock_looks {a : Nat} :
    Ensures (Looks f) (lock .findMountPoint a) fun found w => found = true ∧ Looks f w := by
  intro w found w' hw h
  exact ⟨lock_granted hw.2 (by decide) h, hw.of_changes (lock_touches _ _ _ h)⟩

theorem findInBucket_finds (hchain : Chain f address links) :
    Ensures (Looks f) (findInBucket inode enclosing fuel address) fun found _ =>
      found = firstWith inode enclosing links := by
  induction fuel generalizing address links with
  | zero => exact .failure
  | succ fuel ih =>
      refine .ite (fun hend => .pure fun _ _ => ?_) fun hne => ?_
      · cases hchain with
        | nil => rfl
        | cons hplace => exact absurd hend (place_ne_sizeMax hplace)
      · cases hchain with
        | nil => exact absurd rfl hne
        | @cons _ id m links hplace hmountPoint hrest =>
            refine .bind lock_looks fun found => .and_pre fun hfound => ?_
            subst hfound
            refine .bind (R := fun m' w => m' = m ∧ Looks f w) ?_ fun m' => .and_pre fun hm' => ?_
            · intro w m' w' hw h
              obtain ⟨rfl, hat⟩ := mountPointAt_some h
              rw [hplace, show w'.server.structures = f from hw.1, hmountPoint] at hat
              cases hat
              exact ⟨rfl, hw⟩
            · subst hm'
              rw [firstWith_cons]
              refine .bind (looks_ensures unlock_touches) fun _ => .ite (fun hkey => ?_) fun hkey => ?_
              · exact .pure fun _ _ => (if_pos hkey).symm
              · rw [if_neg hkey]
                exact ih hrest

theorem fsNamespaceAt_some {n : FsNamespace} (h : fsNamespaceAt address w = some (n, w')) :
    w' = w ∧ w.server.structures (place address) = some (.fsNamespace n) := by
  obtain ⟨structure', w₁, hread, h⟩ := bind_some h
  obtain ⟨rfl, hat⟩ := structureAt_some hread
  cases structure' with
  | fsNamespace n' =>
      cases h
      exact ⟨rfl, hat⟩
  | uninitialized | processData | directoryInfo | mountPoint | listInfo => cases h

theorem findMountPoint_finds {namespaceId : Nat}
    (hchain : Chain f ((tableOf (f (place (namespaceAddress namespaceId)))).buckets
      (bucketOf inode)) links) :
    Ensures (Looks f) (findMountPoint fuel namespaceId inode enclosing) fun found _ =>
      found = firstWith inode enclosing links := by
  refine .bind lock_looks fun found => .and_pre fun hfound => ?_
  subst hfound
  refine .bind (R := fun n w => f (place (namespaceAddress namespaceId)) =
    some (.fsNamespace n) ∧ Looks f w) ?_ fun n => .and_pre fun hn => ?_
  · intro w n w' hw h
    obtain ⟨rfl, hat⟩ := fsNamespaceAt_some h
    rw [show w'.server.structures = f from hw.1] at hat
    exact ⟨hat, hw⟩
  · rw [hn] at hchain
    refine .bind (R := fun found _ => found = firstWith inode enclosing links)
      (findInBucket_finds hchain) fun found => .bind (R := fun _ _ => found = firstWith inode
        enclosing links) (fun _ _ _ hw _ => hw) fun _ => .pure fun _ hw => hw

end Cenix.Vfs
