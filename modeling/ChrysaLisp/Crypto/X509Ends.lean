import ChrysaLisp.Crypto.X509

set_option autoImplicit false

/-! # What a certificate is read past

Every reader of a certificate stays within what there is of it, whatever it is, but the one of its
extensions: one that has nothing in it is read all the same. So a certificate is read to its end, or not,
by whether each extension of it has something in it (`ends_x509Parse`). -/

namespace ChrysaLisp.Tls

open Bounded

/-! ## The parts of a certificate -/

theorem ends_derBytes {data : Str} {item : Item} (h : item.In data) : Ends (derBytes data item) :=
  ⟨_, h.derBytes_eq⟩

theorem ends_derWhole {data : Str} {item : Item} (h : item.In data) : Ends (derWhole data item) :=
  ⟨_, h.derWhole_eq⟩

theorem ends_x509Digits {text : Str} {s e : ℕ} (h : s ≤ e) (he : e ≤ text.length) :
    Ends (x509Digits text s e) :=
  (ends_slice.mpr ⟨h, he⟩).bind (fun _ _ => ends_pure _)

theorem ends_x509Time {data : Str} {item : Item} (h : item.In data) : Ends (x509Time data item) := by
  unfold x509Time
  refine (ends_derBytes h).bind (fun text _ => ?_)
  generalize (if item.tag = 0x18 then 4 else 2 : ℕ) = at'
  dsimp only
  by_cases hlen : text.length < at' + 10
  · rw [if_pos hlen]
    exact ends_pure _
  · rw [if_neg hlen]
    exact (ends_x509Digits (by omega) (by omega)).bind fun _ _ =>
      (ends_x509Digits (by omega) (by omega)).bind fun _ _ =>
      (ends_x509Digits (by omega) (by omega)).bind fun _ _ =>
      (ends_x509Digits (by omega) (by omega)).bind fun _ _ =>
      (ends_x509Digits (by omega) (by omega)).bind fun _ _ =>
      (ends_x509Digits (by omega) (by omega)).bind fun _ _ => ends_pure _

theorem ends_x509Bits {data : Str} {item : Item} (h : item.In data) : Ends (x509Bits data item) := by
  unfold x509Bits
  by_cases hlt : item.start < item.stop
  · rw [if_pos hlt, ends_slice]
    exact ⟨hlt, h.stop⟩
  · rw [if_neg hlt]
    exact ends_pure _

/-- An element of the things in a thing is one of them. -/
theorem elem_things {data : Str} {item kid : Item} {i : ℕ} (h : elem (things data item) i = .ok kid) :
    kid.In data :=
  things_in (List.mem_of_getElem? (elem_eq_ok.mp h))

theorem ends_x509Param (data : Str) (item : Item) : Ends (x509Param data (things data item)) := by
  unfold x509Param
  by_cases hlen : 1 < (things data item).length
  · rw [if_pos hlen]
    refine (ends_elem.mpr hlen).bind (fun second hsecond => ?_)
    by_cases htag : second.tag = 0x06
    · rw [if_pos htag]
      exact (ends_derBytes (elem_things hsecond)).bind fun _ _ =>
        (ends_derOid _).bind fun _ _ => ends_pure _
    · rw [if_neg htag]
      exact ends_pure _
  · rw [if_neg hlen]
    exact ends_pure _

theorem ends_x509Rsa (bits : Str) : Ends (x509Rsa bits) := by
  unfold x509Rsa
  rw [derAt_eq, ok_bind]
  cases derThing bits 0 with
  | none => exact ends_pure _
  | some seq =>
      simp only [derIn_eq, ok_bind]
      by_cases hlen : (things bits seq).length = 2
      · rw [if_pos hlen]
        exact (ends_elem.mpr (by omega)).bind fun _ hn => (ends_derBytes (elem_things hn)).bind fun _ _ =>
          (ends_elem.mpr (by omega)).bind fun _ he => (ends_derBytes (elem_things he)).bind fun _ _ =>
          ends_pure _
      · rw [if_neg hlen]
        exact ends_pure _

theorem ends_x509Key (cert : Cert) (data : Str) (spki : Item) : Ends (x509Key cert data spki) := by
  unfold x509Key
  rw [derIn_eq, ok_bind]
  by_cases hlen : (things data spki).length = 2
  · rw [if_pos hlen]
    refine (ends_elem.mpr (by omega)).bind (fun second hsecond => ?_)
    refine (ends_elem.mpr (by omega)).bind (fun first hfirst => ?_)
    rw [derIn_eq, ok_bind]
    by_cases hkey : second.tag = 0x03 ∧ things data first ≠ []
    · rw [if_pos hkey]
      have hpos : 0 < (things data first).length := List.length_pos_iff.mpr hkey.2
      refine (ends_x509Bits (elem_things hsecond)).bind (fun bits _ => ?_)
      refine (ends_elem.mpr hpos).bind (fun alg halg => ?_)
      refine (ends_derBytes (elem_things halg)).bind (fun bytes _ => ?_)
      refine (ends_derOid bytes).bind (fun oid _ => ?_)
      refine (ends_x509Param data first).bind (fun param _ => ?_)
      by_cases hrsa : oid = asc "1.2.840.113549.1.1.1"
      · rw [if_pos hrsa]
        refine (ends_x509Rsa bits).bind (fun key _ => ?_)
        cases key with
        | none => exact ends_pure _
        | some key => exact ends_pure _
      · rw [if_neg hrsa]
        split_ifs <;> exact ends_pure _
    · rw [if_neg hkey]
      exact ends_pure _
  · rw [if_neg hlen]
    exact ends_pure _

/-! ## Extensions -/

theorem ends_x509Names (value : Str) (inner : Item) : Ends (x509Names value inner) := by
  unfold x509Names
  rw [derIn_eq, ok_bind, ends_mapM]
  exact fun kid hkid => ends_derBytes (things_in (List.mem_of_mem_filter hkid))

theorem ends_x509Ca (value : Str) (inner : Item) : Ends (x509Ca value inner) := by
  unfold x509Ca
  rw [derIn_eq, ok_bind]
  by_cases hflags : things value inner = []
  · rw [if_neg (not_not_intro hflags)]
    exact ends_pure _
  · rw [if_pos hflags]
    refine (ends_elem.mpr (List.length_pos_iff.mpr hflags)).bind (fun flag hflag => ?_)
    by_cases htag : flag.tag = 0x01 ∧ flag.start < flag.stop
    · rw [if_pos htag]
      have hin := (elem_things hflag).stop
      exact (ends_code.mpr (by omega)).bind fun _ _ => ends_pure _
    · rw [if_neg htag]
      exact ends_pure _

/-- An extension is read where there is something in it, and no further where there is not. -/
theorem ends_x509Extension (data : Str) (cert : Cert) (ext : Item) :
    Ends (x509Extension data cert ext) ↔ things data ext ≠ [] := by
  unfold x509Extension
  rw [derIn_eq, ok_bind]
  by_cases hkids : things data ext = []
  · rw [hkids]
    simp [elem, Ends]
  · have hpos : 0 < (things data ext).length := List.length_pos_iff.mpr hkids
    simp only [ne_eq, hkids, not_false_eq_true, iff_true]
    refine (ends_elem.mpr hpos).bind (fun first hfirst => ?_)
    refine (ends_derBytes (elem_things hfirst)).bind (fun bytes _ => ?_)
    refine (ends_derOid bytes).bind (fun oid _ => ?_)
    refine (ends_elem.mpr (by omega)).bind (fun last hlast => ?_)
    refine (ends_derBytes (elem_things hlast)).bind (fun value _ => ?_)
    rw [derAt_eq, ok_bind]
    cases derThing value 0 with
    | none => exact ends_pure _
    | some inner =>
        dsimp only
        by_cases hlen : (things data ext).length < 2
        · rw [if_pos hlen]
          exact ends_pure _
        · rw [if_neg hlen]
          by_cases hnames : oid = asc "2.5.29.17"
          · rw [if_pos hnames]
            exact (ends_x509Names value inner).bind fun _ _ => ends_pure _
          · rw [if_neg hnames]
            by_cases hca : oid = asc "2.5.29.19"
            · rw [if_pos hca]
              exact (ends_x509Ca value inner).bind fun _ _ => ends_pure _
            · rw [if_neg hca]
              exact ends_pure _

/-- The extensions a field of them has. -/
def extensionsOf (data : Str) (field : Item) : List Item :=
  match things data field with
  | seq :: _ => things data seq
  | [] => []

theorem ends_x509Extensions (cert : Cert) (data : Str) (field : Item) :
    Ends (x509Extensions cert data field) ↔ ∀ ext ∈ extensionsOf data field, things data ext ≠ [] := by
  unfold x509Extensions extensionsOf
  rw [derIn_eq, ok_bind]
  cases things data field with
  | nil => simp
  | cons seq rest =>
      simp only [List.head?_cons, derIn_eq, ok_bind]
      exact ends_foldlM (fun cert ext _ => ends_x509Extension data cert ext) cert

/-! ## A certificate -/

/-- The fields of the first part of a certificate, its version out of the way. -/
def fieldsOf (der : Str) (first : Item) : List Item :=
  match things der first with
  | field :: rest => if field.tag = 0xa0 then rest else field :: rest
  | [] => []

/-- The extensions of what is laid out as a certificate is. -/
def certExtensions (der : Str) : List Item :=
  match derThing der 0 with
  | none => []
  | some top =>
      match things der top with
      | [first, alg, third] =>
          match fieldsOf der first with
          | _ :: _ :: _ :: validity :: _ :: _ :: more =>
              if top.tag = 0x30 ∧ first.tag = 0x30 ∧ third.tag = 0x03 ∧ things der alg ≠ [] ∧
                  (things der validity).length = 2 then
                (more.filter (fun field => decide (field.tag = 0xa3))).flatMap (extensionsOf der)
              else []
          | _ => []
      | _ => []

/-- What is left to do with the fields that may be extensions. -/
theorem ends_moreFields (der : Str) (more : List Item) (cert : Cert) :
    Ends (more.foldlM (fun cert field =>
      if field.tag = 0xa3 then x509Extensions cert der field else return cert) cert) ↔
    ∀ ext ∈ (more.filter (fun field => decide (field.tag = 0xa3))).flatMap (extensionsOf der),
      things der ext ≠ [] := by
  rw [ends_foldlM (E := fun field => field.tag = 0xa3 →
    ∀ ext ∈ extensionsOf der field, things der ext ≠ [])]
  · simp only [List.mem_flatMap, List.mem_filter, decide_eq_true_eq]
    constructor
    · rintro h ext ⟨field, ⟨hfield, htag⟩, hext⟩
      exact h field hfield htag ext hext
    · intro h field hfield htag ext hext
      exact h ext ⟨field, ⟨hfield, htag⟩, hext⟩
  · intro cert field _
    by_cases htag : field.tag = 0xa3
    · simp [htag, ends_x509Extensions]
    · simp [htag]

theorem ends_x509Fields {der : Str} {top first alg third issuer validity subject spki f0 f1 : Item}
    {more : List Item} (hparts : things der top = [first, alg, third]) (halg : things der alg ≠ [])
    (hissuer : issuer.In der) (hsubject : subject.In der) :
    Ends (x509Fields der [first, alg, third] (f0 :: f1 :: issuer :: validity :: subject :: spki :: more)
      (things der alg)) ↔
    ((things der validity).length = 2 →
      ∀ ext ∈ (more.filter (fun field => decide (field.tag = 0xa3))).flatMap (extensionsOf der),
        things der ext ≠ []) := by
  unfold x509Fields
  simp only [elem_cons_succ, elem_cons_zero, ok_bind, derIn_eq]
  by_cases htimes : (things der validity).length = 2
  · simp only [htimes, if_true, true_imp_iff]
    have hin : ∀ item ∈ [first, alg, third], item.In der := by
      rw [← hparts]
      exact fun item h => things_in h
    refine ends_bind_iff (ends_derWhole (hin first (by simp))) fun tbs _ => ?_
    refine ends_bind_iff (ends_elem.mpr (List.length_pos_iff.mpr halg)) fun a ha => ?_
    refine ends_bind_iff (ends_derBytes (elem_things ha)) fun bytes _ => ?_
    refine ends_bind_iff (ends_derOid bytes) fun sigAlg _ => ?_
    refine ends_bind_iff (ends_x509Bits (hin third (by simp))) fun sig _ => ?_
    refine ends_bind_iff (ends_derWhole hissuer) fun issuer _ => ?_
    refine ends_bind_iff (ends_derWhole hsubject) fun subject _ => ?_
    refine ends_bind_iff (ends_elem.mpr (by omega)) fun t0 ht0 => ?_
    refine ends_bind_iff (ends_x509Time (elem_things ht0)) fun from' _ => ?_
    refine ends_bind_iff (ends_elem.mpr (by omega)) fun t1 ht1 => ?_
    refine ends_bind_iff (ends_x509Time (elem_things ht1)) fun until' _ => ?_
    refine ends_bind_iff (ends_x509Key _ der spki) fun cert _ => ?_
    rw [slice_of_le (by simp) le_rfl, ok_bind, List.take_length]
    simp only [List.drop_succ_cons, List.drop_zero]
    rw [← ends_moreFields der more cert]
    refine ⟨fun h => ?_, fun h => h.bind fun _ _ => ends_pure _⟩
    obtain ⟨cert, hcert, -⟩ := (ends_bind _ _).mp h
    exact ⟨cert, hcert⟩
  · simp [htimes]

theorem x509Unversioned_eq (der : Str) (first : Item) :
    x509Unversioned (things der first) = .ok (fieldsOf der first) := by
  unfold x509Unversioned fieldsOf
  cases things der first with
  | nil => rfl
  | cons field rest =>
      simp only [List.head?_cons]
      by_cases hversion : field.tag = 0xa0
      · rw [if_pos hversion, if_pos hversion, slice_of_le (by simp) le_rfl, List.take_length]
        rfl
      · rw [if_neg hversion, if_neg hversion]
        rfl

theorem mem_fieldsOf {der : Str} {first field : Item} (h : field ∈ fieldsOf der first) : field.In der := by
  unfold fieldsOf at h
  cases hthings : things der first with
  | nil =>
      rw [hthings] at h
      exact absurd h List.not_mem_nil
  | cons version rest =>
      have hall : ∀ item ∈ version :: rest, item.In der := by
        rw [← hthings]
        exact fun item hitem => things_in hitem
      simp only [hthings] at h
      by_cases hversion : version.tag = 0xa0
      · rw [if_pos hversion] at h
        exact hall field (List.mem_cons_of_mem _ h)
      · rw [if_neg hversion] at h
        exact hall field h

/-- **What is read of a certificate** is all there is exactly where each of its extensions has something
in it. -/
theorem ends_x509Parse (der : Str) :
    Ends (x509Parse der) ↔ ∀ ext ∈ certExtensions der, things der ext ≠ [] := by
  unfold x509Parse certExtensions
  rw [derAt_eq, ok_bind]
  cases htop : derThing der 0 with
  | none => simp
  | some top =>
      simp only [derIn_eq, ok_bind]
      generalize hparts : things der top = parts
      rcases parts with _ | ⟨first, _ | ⟨alg, _ | ⟨third, _ | ⟨fourth, rest⟩⟩⟩⟩
      · simp
      · simp
      · simp
      · simp only [List.length_cons, List.length_nil, and_true, elem_cons_succ, elem_cons_zero, ok_bind,
          x509Unversioned_eq]
        generalize hfields : fieldsOf der first = fields
        have hin : ∀ item ∈ fields, item.In der := by
          rw [← hfields]
          exact fun item hitem => mem_fieldsOf hitem
        -- what it comes to is for fields enough, and of so few there are no extensions
        rcases fields with _ | ⟨f0, _ | ⟨f1, _ | ⟨issuer, _ | ⟨validity, _ | ⟨subject, _ | ⟨spki, more⟩⟩⟩⟩⟩⟩
        · simp
        · simp
        · simp
        · simp
        · simp
        · simp
        · by_cases hlaid : (top.tag = 0x30 ∧ first.tag = 0x30 ∧ third.tag = 0x03) ∧ things der alg ≠ []
          · obtain ⟨⟨htop, hfirst, hthird⟩, halg⟩ := hlaid
            rw [if_pos htop, if_pos ⟨hfirst, hthird⟩, if_pos ⟨by simp, halg⟩,
              ends_x509Fields hparts halg (hin issuer (by simp)) (hin subject (by simp))]
            by_cases htimes : (things der validity).length = 2
            · simp [htimes, htop, hfirst, hthird, halg]
            · simp [htimes]
          · have hno : ∀ P : Prop, ¬ (top.tag = 0x30 ∧ first.tag = 0x30 ∧ third.tag = 0x03 ∧
                things der alg ≠ [] ∧ P) :=
              fun P h => hlaid ⟨⟨h.1, h.2.1, h.2.2.1⟩, h.2.2.2.1⟩
            simp only [hno, if_false, List.not_mem_nil, false_imp_iff, implies_true, iff_true]
            split_ifs with htop hfirst halg
            · exact absurd ⟨⟨htop, hfirst⟩, halg.2⟩ hlaid
            · simp
            · simp
            · simp
      · simp

end ChrysaLisp.Tls
