import ChrysaLisp.Sync.Service

set_option autoImplicit false

/-! # Is a file that was sent the file there is

A sender that was answered well of every chunk of a file, with no put of that path after the last,
has its bytes in the file if nobody else began that path in between, and if the service was not,
when the first chunk came, in the middle of that path and further on than the file is long
(`put_whole`). Of the file that is open the service knows the path and how far it has got, and not
whose it is: a chunk of one sender goes on with what another began (`put_fails`). -/

namespace ChrysaLisp

/-! ## A stream that is written -/

namespace FileStream

variable {files : Files} {stream : FileStream} {wrote left : Str}

/-- A stream that has been sent these bytes, of a file that had others to begin with: what is in the
    file is the bytes, as far as they have been written, with those the file had under them. -/
def Writing (files : Files) (stream : FileStream) (wrote left : Str) : Prop :=
  ∃ front, wrote = front ++ stream.buf ∧ stream.pos = front.length ∧
    files stream.path = some (front ++ left.drop front.length)

theorem writing_begin (path : Str) (h : files path = some left) :
    Writing files ⟨path, 0, []⟩ [] left :=
  ⟨[], rfl, rfl, by simpa using h⟩

theorem flush_path (files : Files) (stream : FileStream) :
    (stream.flush files).2.path = stream.path := by
  unfold flush
  split <;> rfl

theorem flush_other (files : Files) (stream : FileStream) {path : Str} (h : stream.path ≠ path) :
    (stream.flush files).1 path = files path := by
  unfold flush
  split
  · rfl
  · exact Function.update_of_ne (Ne.symm h) _ _

/-- What has been sent is in the file, when what is held has been written. -/
theorem Writing.flush (h : Writing files stream wrote left) :
    (stream.flush files).1 stream.path = some (wrote ++ left.drop wrote.length) ∧
      Writing (stream.flush files).1 (stream.flush files).2 wrote left ∧
      (stream.flush files).2.buf = [] := by
  obtain ⟨front, rfl, hpos, hfile⟩ := h
  unfold FileStream.flush
  split
  next hbuf =>
    refine ⟨?_, ⟨front, rfl, hpos, hfile⟩, hbuf⟩
    show files stream.path = _
    rw [hfile, hbuf, List.append_nil]
  next hbuf =>
    have hwrite : writeAt (front ++ left.drop front.length) front.length stream.buf
        = front ++ stream.buf ++ left.drop (front ++ stream.buf).length := by
      unfold writeAt
      rw [List.take_left, Nat.sub_eq_zero_of_le (by simp), List.replicate_zero, List.append_nil,
        List.drop_append, List.drop_eq_nil_of_le (by omega), List.nil_append, List.drop_drop,
        List.length_append]
      congr 2
      omega
    have hnow : Function.update files stream.path
        (some (writeAt ((files stream.path).getD []) stream.pos stream.buf)) stream.path
          = some (front ++ stream.buf ++ left.drop (front ++ stream.buf).length) := by
      rw [Function.update_self, hfile, Option.getD_some, hpos, hwrite]
    refine ⟨hnow, ⟨front ++ stream.buf, (List.append_nil _).symm, ?_, hnow⟩, rfl⟩
    rw [List.length_append, hpos]

theorem writeChar_eq (files : Files) (stream : FileStream) (c : Byte) :
    writeChar files stream c =
      if stream.buf.length = fstreamBufSize then
        ((stream.flush files).1,
          { (stream.flush files).2 with buf := (stream.flush files).2.buf ++ [c] })
      else (files, { stream with buf := stream.buf ++ [c] }) := by
  unfold writeChar
  by_cases hfull : stream.buf.length = fstreamBufSize
  · simp only [if_pos hfull]
  · simp only [if_neg hfull]

theorem Writing.writeChar (h : Writing files stream wrote left) (c : Byte) :
    Writing (writeChar files stream c).1 (writeChar files stream c).2 (wrote ++ [c]) left := by
  have hadd : ∀ {files : Files} {stream : FileStream}, Writing files stream wrote left →
      Writing files { stream with buf := stream.buf ++ [c] } (wrote ++ [c]) left := by
    rintro files stream ⟨front, rfl, hpos, hfile⟩
    exact ⟨front, List.append_assoc _ _ _, hpos, hfile⟩
  rw [writeChar_eq]
  split
  · exact hadd h.flush.2.1
  · exact hadd h

theorem Writing.writeBlk (h : Writing files stream wrote left) (body : Str) :
    Writing (stream.writeBlk files body).1 (stream.writeBlk files body).2 (wrote ++ body) left := by
  have hfold : ∀ (body : Str) (acc : Files × FileStream) (wrote : Str),
      Writing acc.1 acc.2 wrote left →
      Writing (body.foldl (fun acc c => FileStream.writeChar acc.1 acc.2 c) acc).1
        (body.foldl (fun acc c => FileStream.writeChar acc.1 acc.2 c) acc).2 (wrote ++ body) left := by
    intro body
    induction body with
    | nil =>
        intro acc wrote h
        rw [List.append_nil]
        exact h
    | cons c body ih =>
        intro acc wrote h
        rw [List.append_cons]
        exact ih _ _ (h.writeChar c)
  exact hfold body (files, stream) wrote h

/-- A block is written to the stream's own file, and to no other, and is written or held. -/
theorem writeBlk_rest (files : Files) (stream : FileStream) (body : Str) :
    (stream.writeBlk files body).2.path = stream.path ∧
      (∀ path, stream.path ≠ path → (stream.writeBlk files body).1 path = files path) ∧
      (stream.writeBlk files body).2.pos + (stream.writeBlk files body).2.buf.length
        = stream.pos + stream.buf.length + body.length := by
  have hchar : ∀ (files : Files) (stream : FileStream) (c : Byte),
      (writeChar files stream c).2.path = stream.path ∧
        (∀ path, stream.path ≠ path → (writeChar files stream c).1 path = files path) ∧
        (writeChar files stream c).2.pos + (writeChar files stream c).2.buf.length
          = stream.pos + stream.buf.length + 1 := by
    intro files stream c
    rw [writeChar_eq]
    split
    next hfull =>
      refine ⟨flush_path files stream, fun path hne => flush_other files stream hne, ?_⟩
      have hne : stream.buf ≠ [] := by
        rintro hnil
        rw [hnil] at hfull
        exact absurd hfull (by decide)
      simp only [flush, if_neg hne, List.length_singleton, List.nil_append]
    · refine ⟨rfl, fun _ _ => rfl, ?_⟩
      simp only [List.length_append, List.length_singleton]
      omega
  unfold writeBlk
  induction body generalizing files stream with
  | nil => exact ⟨rfl, fun _ _ => rfl, rfl⟩
  | cons c body ih =>
      obtain ⟨hp, hother, hlen⟩ := hchar files stream c
      obtain ⟨ip, iother, ilen⟩ := ih (writeChar files stream c).1 (writeChar files stream c).2
      rw [List.foldl_cons]
      refine ⟨ip.trans hp, fun path hne => ?_, ?_⟩
      · exact (iother path (hp ▸ hne)).trans (hother path hne)
      · rw [List.length_cons]
        refine ilen.trans ?_
        omega

end FileStream

namespace SyncService

open FileStream

variable {ι : Type} {service : SyncService} {m : SyncPut ι} {path wrote left data : Str}

/-! ## What a put does to the file of a path -/

/-- The stream that is open is of the path that is said to be open, and has got as far as is said. -/
def Kept (service : SyncService) : Prop :=
  ∀ stream, service.out = some stream →
    stream.path = service.outPath ∧ stream.pos + stream.buf.length = service.outAt

/-- If a path is open, it has been sent these bytes, and it may be others after them. -/
def Owns (path wrote left : Str) (service : SyncService) : Prop :=
  ∀ stream, service.out = some stream → stream.path = path →
    ∃ more, Writing service.files stream (wrote ++ more) left

/-- A path is the file it is to be, and is not open. -/
def Has (path data : Str) (service : SyncService) : Prop :=
  service.files path = some data ∧ ∀ stream, service.out = some stream → stream.path ≠ path

theorem letGo_other {out : Option FileStream} {files : Files}
    (h : ∀ stream, out = some stream → stream.path ≠ path) : letGo out files path = files path := by
  cases out with
  | none => rfl
  | some stream => exact flush_other files stream (h stream rfl)

theorem start_of_ne (h : m.place ≠ 0) : service.start m = service := by
  unfold start
  rw [if_neg h]

theorem kept_start (h : service.Kept) : (service.start m).Kept := by
  unfold start
  split
  · intro stream hs
    simp only at hs
    split at hs
    · obtain rfl := Option.some.inj hs
      exact ⟨rfl, rfl⟩
    · exact absurd hs (by simp)
  · exact h

/-- Everything a put of a file that is open, or is not, can do. -/
theorem goOn_cases (service : SyncService) (m : SyncPut ι) :
    ((service.goOn m).2 = -3 ∧ (service.goOn m).1.out = none ∧
        (service.goOn m).1.files = letGo service.out service.files) ∨
      ∃ stream, service.out = some stream ∧ m.path = service.outPath ∧ m.place = service.outAt ∧
        (service.goOn m).2 = 0 ∧
        ((m.total ≤ (service.outAt + m.body.length : ℕ) ∧ (service.goOn m).1.out = none ∧
            (service.goOn m).1.files = ((stream.writeBlk service.files m.body).2.flush
              (stream.writeBlk service.files m.body).1).1) ∨
          ((service.outAt + m.body.length : ℕ) < m.total ∧
            (service.goOn m).1.out = some (stream.writeBlk service.files m.body).2 ∧
            (service.goOn m).1.files = (stream.writeBlk service.files m.body).1 ∧
            (service.goOn m).1.outPath = service.outPath ∧
            (service.goOn m).1.outAt = service.outAt + m.body.length)) := by
  unfold goOn
  cases hout : service.out with
  | none => exact Or.inl ⟨rfl, rfl, rfl⟩
  | some stream =>
      simp only
      split
      · exact Or.inl ⟨rfl, rfl, rfl⟩
      next hsame =>
        push Not at hsame
        refine Or.inr ⟨stream, rfl, hsame.1, hsame.2, ?_⟩
        split
        next hwhole => exact ⟨rfl, Or.inl ⟨hwhole, rfl, rfl⟩⟩
        next hwhole => exact ⟨rfl, Or.inr ⟨not_le.1 hwhole, rfl, rfl, rfl, rfl⟩⟩

theorem kept_goOn (h : service.Kept) : (service.goOn m).1.Kept := by
  intro stream' hs
  rcases goOn_cases service m with ⟨-, hnone, -⟩ | ⟨stream, hout, -, -, -, ⟨-, hnone, -⟩ | hopen⟩
  · rw [hnone] at hs
    exact absurd hs (by simp)
  · rw [hnone] at hs
    exact absurd hs (by simp)
  · obtain ⟨-, hout', -, hpath, hat⟩ := hopen
    obtain rfl := Option.some.inj (hout'.symm.trans hs)
    obtain ⟨hp, -, hlen⟩ := writeBlk_rest service.files stream m.body
    rw [hp, hlen, hpath, hat, (h stream hout).1, (h stream hout).2]
    exact ⟨rfl, rfl⟩

/-- Everything a put can do. -/
theorem put_cases (service : SyncService) (m : SyncPut ι) :
    (service.put m).1 = service ∧ (service.put m).2 ≠ 0 ∨
      m.safe = true ∧ service.put m = (service.start m).goOn m := by
  unfold put
  split
  · exact Or.inl ⟨rfl, show (-1 : ℤ) ≠ 0 by decide⟩
  · split
    · exact Or.inl ⟨rfl, show (-2 : ℤ) ≠ 0 by decide⟩
    next hsafe => exact Or.inr ⟨by simpa using hsafe, rfl⟩

theorem put_of_safe (hfenced : service.fenced = true) (hsafe : m.safe = true) :
    service.put m = (service.start m).goOn m := by
  unfold put
  simp only [hfenced, hsafe, Bool.not_true, Bool.false_eq_true, if_false]

theorem fenced_put (service : SyncService) (m : SyncPut ι) :
    (service.step m).fenced = service.fenced := by
  have hstart : (service.start m).fenced = service.fenced := by
    unfold start
    split <;> rfl
  unfold step put
  split
  · rfl
  · split
    · rfl
    · rw [← hstart]
      unfold goOn
      split
      · rfl
      · split
        · rfl
        · simp only
          split <;> rfl

/-- A chunk that goes on with the file that is open is taken. -/
theorem goOn_ok {stream : FileStream} (hout : service.out = some stream)
    (hpath : m.path = service.outPath) (hplace : m.place = service.outAt) :
    (service.goOn m).2 = 0 := by
  unfold goOn
  simp only [hout]
  rw [if_neg (not_or.2 ⟨not_not.2 hpath, not_not.2 hplace⟩)]
  split <;> rfl

/-- A chunk from 0 that is not the whole of its file is taken, and the file is open from then on,
    whatever was open. -/
theorem put_begins (hfenced : service.fenced = true) (hsafe : m.safe = true) (hplace : m.place = 0)
    (hopens : m.opens = true) (hmore : (m.body.length : ℤ) < m.total) :
    (service.put m).2 = 0 ∧ (∃ stream, (service.step m).out = some stream) ∧
      (service.step m).outPath = m.path ∧ (service.step m).outAt = m.body.length := by
  have hput := put_of_safe hfenced hsafe
  have hstart : (service.start m).out = some ⟨m.path, 0, []⟩ ∧ (service.start m).outPath = m.path ∧
      (service.start m).outAt = 0 := by
    unfold start
    rw [if_pos hplace, hopens]
    exact ⟨rfl, rfl, rfl⟩
  obtain ⟨hout, hpath, hat⟩ := hstart
  have hok : ((service.start m).goOn m).2 = 0 :=
    goOn_ok hout hpath.symm (by rw [hat, hplace]; rfl)
  unfold step
  rw [hput]
  refine ⟨hok, ?_⟩
  rcases goOn_cases (service.start m) m with
    ⟨hbad, -⟩ | ⟨stream, -, -, -, -, ⟨hwhole, -, -⟩ | ⟨-, hopen, -, houtPath, houtAt⟩⟩
  · rw [hok] at hbad
    exact absurd hbad (by decide)
  · rw [hat, zero_add] at hwhole
    exact absurd hwhole (not_le.2 hmore)
  · exact ⟨⟨_, hopen⟩, houtPath.trans hpath, by rw [houtAt, hat, zero_add]⟩

theorem kept_put (h : service.Kept) (m : SyncPut ι) : (service.step m).Kept := by
  unfold step
  rcases put_cases service m with ⟨hsame, -⟩ | ⟨-, hput⟩
  · rwa [hsame]
  · rw [hput]
    exact kept_goOn (kept_start h)

theorem owns_goOn (h : service.Owns path wrote left) :
    (service.goOn m).1.Owns path wrote left := by
  intro stream' hs hp'
  rcases goOn_cases service m with ⟨-, hnone, -⟩ | ⟨stream, hout, -, -, -, ⟨-, hnone, -⟩ | hopen⟩
  · rw [hnone] at hs
    exact absurd hs (by simp)
  · rw [hnone] at hs
    exact absurd hs (by simp)
  · obtain ⟨-, hout', hfiles, -, -⟩ := hopen
    obtain rfl := Option.some.inj (hout'.symm.trans hs)
    obtain ⟨hp, -, -⟩ := writeBlk_rest service.files stream m.body
    obtain ⟨more, hmore⟩ := h stream hout (hp.symm.trans hp')
    rw [hfiles]
    exact ⟨more ++ m.body, List.append_assoc wrote more m.body ▸ hmore.writeBlk m.body⟩

/-- **A put that does not begin the path** leaves what has been sent of it, if it is open yet. -/
theorem owns_put (h : service.Owns path wrote left)
    (hnot : m.safe = true → m.place = 0 → m.path ≠ path) :
    (service.step m).Owns path wrote left := by
  unfold step
  rcases put_cases service m with ⟨hsame, -⟩ | ⟨hsafe, hput⟩
  · rwa [hsame]
  · rw [hput]
    refine owns_goOn ?_
    unfold start
    split
    next hplace =>
      -- another path is open now, or none
      intro stream hs hp
      simp only at hs
      split at hs
      · obtain rfl := Option.some.inj hs
        exact absurd hp (hnot hsafe hplace)
      · exact absurd hs (by simp)
    · exact h

/-- A put that begins a path: it has been sent nothing, and there is no more in the file than what
    the stream that was open, if it was of the path, had got to. -/
theorem owns_start (hkept : service.Kept) (hplace : m.place = 0) {n : ℕ}
    (hover : ∀ stream, service.out = some stream → service.outPath = m.path → service.outAt ≤ n) :
    ∃ left : Str, left.length ≤ n ∧ (service.start m).Owns m.path [] left := by
  unfold start
  rw [if_pos hplace]
  cases hopens : m.opens with
  | false => exact ⟨[], by simp, fun stream hs _ => by simp at hs⟩
  | true =>
      have hnow : ∃ left : Str, left.length ≤ n ∧
          letGo service.out (Function.update service.files m.path (some [])) m.path = some left := by
        cases hout : service.out with
        | none => exact ⟨[], by simp, by simp [letGo]⟩
        | some stream =>
            by_cases hp : stream.path = m.path
            · obtain ⟨hpath, hat⟩ := hkept stream hout
              unfold letGo FileStream.flush
              by_cases hbuf : stream.buf = []
              · exact ⟨[], by simp, by simp [hbuf]⟩
              · -- what the stream held is written to the file that was made anew
                refine ⟨writeAt [] stream.pos stream.buf, ?_, ?_⟩
                · have hn := hover stream hout (hpath.symm.trans hp)
                  simp only [writeAt, List.take_nil, List.length_nil, Nat.sub_zero, List.nil_append,
                    List.drop_nil, List.append_nil, List.length_append, List.length_replicate]
                  omega
                · simp only [if_neg hbuf, hp, Function.update_self, Option.getD_some]
            · refine ⟨[], by simp, ?_⟩
              rw [letGo_other (fun st hst => Option.some.inj hst ▸ hp), Function.update_self]
      obtain ⟨left, hlen, hleft⟩ := hnow
      refine ⟨left, hlen, fun stream hs _ => ?_⟩
      obtain rfl := Option.some.inj hs
      exact ⟨[], writing_begin m.path hleft⟩

/-- **A chunk of the file that is open**, from where it has got to: it is the file, or there is more
    to come. -/
theorem chunk_goOn (hkept : service.Kept) (h : service.Owns path wrote left) (hpath : m.path = path)
    (hplace : m.place = wrote.length) (htotal : m.total = data.length)
    (hok : (service.goOn m).2 = 0) (hdata : wrote ++ m.body = data.take (wrote.length + m.body.length))
    (hleft : left.length ≤ data.length) :
    (wrote.length + m.body.length = data.length → (service.goOn m).1.Has path data) ∧
      (wrote.length + m.body.length < data.length →
        (service.goOn m).1.Owns path (wrote ++ m.body) left) := by
  rcases goOn_cases service m with ⟨hbad, -⟩ | ⟨stream, hout, hp, hat, -, hrest⟩
  · rw [hbad] at hok
    exact absurd hok (by decide)
  · obtain ⟨hsp, hslen⟩ := hkept stream hout
    have hstream : stream.path = path := hsp.trans (hp.symm.trans hpath)
    obtain ⟨more, hmore⟩ := h stream hout hstream
    have hgot : service.outAt = wrote.length := by
      have := hat.symm.trans hplace
      exact_mod_cast this
    -- nothing else has been sent of it
    obtain rfl : more = [] := by
      obtain ⟨front, hfront, hpos, -⟩ := hmore
      have hlen := congrArg List.length hfront
      simp only [List.length_append] at hlen
      exact List.length_eq_zero_iff.1 (by omega)
    rw [List.append_nil] at hmore
    have hbody := hmore.writeBlk m.body
    obtain ⟨hbp, -, -⟩ := writeBlk_rest service.files stream m.body
    rcases hrest with ⟨hwhole, hnone, hfiles⟩ | ⟨hmoreTo, hout', hfiles, -, -⟩
    · refine ⟨fun heq => ⟨?_, fun st hst => ?_⟩, fun hlt => ?_⟩
      · have hflush := hbody.flush.1
        rw [hbp, hstream, hdata, heq, List.take_length, List.drop_eq_nil_of_le hleft,
          List.append_nil] at hflush
        rw [hfiles, hflush]
      · rw [hnone] at hst
        exact absurd hst (by simp)
      · rw [htotal, hgot] at hwhole
        exact absurd hwhole (by exact_mod_cast not_le.2 hlt)
    · refine ⟨fun heq => ?_, fun _ st hst _ => ?_⟩
      · rw [htotal, hgot, heq] at hmoreTo
        exact absurd hmoreTo (lt_irrefl _)
      · obtain rfl := Option.some.inj (hout'.symm.trans hst)
        rw [hfiles]
        exact ⟨[], by rwa [List.append_nil]⟩

/-- **A put of another path** leaves a file that is whole as it is. -/
theorem has_put (h : service.Has path data) (hne : m.path ≠ path) :
    (service.step m).Has path data := by
  have hstart : (service.start m).Has path data := by
    unfold start
    split
    · refine ⟨?_, fun stream hs => ?_⟩
      · show letGo service.out _ path = some data
        rw [letGo_other h.2, ← h.1]
        split
        · exact Function.update_of_ne (Ne.symm hne) _ _
        · rfl
      · simp only at hs
        split at hs
        · obtain rfl := Option.some.inj hs
          exact hne
        · exact absurd hs (by simp)
    · exact h
  have hgo : ∀ {service : SyncService}, service.Has path data →
      (service.goOn m).1.Has path data := by
    intro service h
    rcases goOn_cases service m with
      ⟨-, hnone, hfiles⟩ | ⟨stream, hout, -, -, -, ⟨-, hnone, hfiles⟩ | ⟨-, hout', hfiles, -, -⟩⟩
    · refine ⟨?_, fun st hst => absurd (hnone.symm.trans hst) (by simp)⟩
      rw [hfiles, letGo_other h.2, h.1]
    · obtain ⟨hbp, hother, -⟩ := writeBlk_rest service.files stream m.body
      have hs := h.2 stream hout
      refine ⟨?_, fun st hst => absurd (hnone.symm.trans hst) (by simp)⟩
      rw [hfiles, flush_other _ _ (hbp ▸ hs), hother path hs, h.1]
    · obtain ⟨hbp, hother, -⟩ := writeBlk_rest service.files stream m.body
      have hs := h.2 stream hout
      refine ⟨?_, fun st hst => ?_⟩
      · rw [hfiles, hother path hs, h.1]
      · obtain rfl := Option.some.inj (hout'.symm.trans hst)
        exact hbp ▸ hs
  unfold step
  rcases put_cases service m with ⟨hsame, -⟩ | ⟨-, hput⟩
  · rwa [hsame]
  · rw [hput]
    exact hgo hstart

/-! ## A file that is sent -/

/-- What is sent is read as what it is of, if there is no line feed in the path. -/
theorem nl_of_isChunk {chunk : ℕ × Str} (hlf : 10 ∉ path) (h : m.IsChunk path data chunk) :
    m.nl = some path.length := by
  unfold SyncPut.nl findByte
  rw [h.2.2, List.drop_zero, List.append_assoc, List.findIdx?_append]
  have hpath : path.findIdx? (fun b => decide (b = 10)) = none := by
    rw [List.findIdx?_eq_none_iff]
    intro b hb
    rw [decide_eq_false_iff_not]
    rintro rfl
    exact hlf hb
  rw [hpath]
  simp [List.findIdx?_cons]

theorem path_body_of_isChunk {chunk : ℕ × Str} (hlf : 10 ∉ path) (h : m.IsChunk path data chunk) :
    m.path = path ∧ m.body = chunk.2 := by
  unfold SyncPut.path SyncPut.body
  rw [nl_of_isChunk hlf h, h.2.2]
  refine ⟨?_, ?_⟩
  · rw [Option.getD_some, List.append_assoc, List.take_left]
  · rw [Option.map_some, Option.getD_some]
    exact List.drop_left' (by simp)

variable [DecidableEq ι] {i : ι}

/-- A sender's chunks of a file, in order among whatever reaches the service, from the first to the
    last, each of which it is answered well. -/
structure Sent (service : SyncService) (i : ι) (path data : Str) (during : List (SyncPut ι)) :
    Prop where
  first : during.head?.map SyncPut.sender = some i
  last : during.getLast?.map SyncPut.sender = some i
  chunks : List.Forall₂ (fun m chunk => m.IsChunk path data chunk)
    (during.filter (fun m => decide (m.sender = i))) (chunksFrom data 0)
  answered : Run.Each step (fun service m => m.sender = i → (service.put m).2 = 0) service during

/-- Where the last of some messages is a sender's, and none of them are, there are none. -/
theorem eq_nil_of_last {during : List (SyncPut ι)}
    (hlast : ∀ m, during.getLast? = some m → m.sender = i)
    (hnone : during.filter (fun m => decide (m.sender = i)) = []) : during = [] := by
  rcases List.eq_nil_or_concat during with hnil | ⟨init, m, rfl⟩
  · exact hnil
  · have hm := hlast m (by simp)
    have hin : m ∈ (init.concat m).filter (fun m => decide (m.sender = i)) :=
      List.mem_filter.2 ⟨by simp, by simpa using hm⟩
    rw [hnone] at hin
    exact absurd hin List.not_mem_nil

omit [DecidableEq ι] in
theorem last_of_cons {m : SyncPut ι} {during : List (SyncPut ι)}
    (hlast : ∀ x, (m :: during).getLast? = some x → x.sender = i) :
    ∀ x, during.getLast? = some x → x.sender = i := by
  intro x hx
  refine hlast x ?_
  rw [List.getLast?_cons, hx]
  rfl

/-- The rest of the chunks, where the file is not whole yet. -/
theorem has_rest {during : List (SyncPut ι)} (hlf : 10 ∉ path) (hleft : left.length ≤ data.length)
    (hkept : service.Kept) (howns : service.Owns path wrote left) (hpos : 0 < wrote.length)
    (hlt : wrote.length < data.length) (hwrote : wrote = data.take wrote.length)
    (hlast : ∀ m, during.getLast? = some m → m.sender = i)
    (hchunks : List.Forall₂ (fun m chunk => m.IsChunk path data chunk)
      (during.filter (fun m => decide (m.sender = i))) (chunksFrom data wrote.length))
    (hanswered : Run.Each step (fun service m => m.sender = i → (service.put m).2 = 0) service during)
    (halone : ∀ m ∈ during, m.sender ≠ i → m.safe = true → m.place = 0 → m.path ≠ path) :
    (Run.run step service during).Has path data := by
  induction during generalizing service wrote with
  | nil =>
      obtain ⟨body, -, hnext, -⟩ := chunksFrom_next hlt
      rw [hnext] at hchunks
      exact absurd hchunks (by simp)
  | cons m during ih =>
      have hlast' := last_of_cons hlast
      have halone' : ∀ x ∈ during, x.sender ≠ i → x.safe = true → x.place = 0 → x.path ≠ path :=
        fun x hx => halone x (List.mem_cons_of_mem _ hx)
      by_cases hi : m.sender = i
      · -- a chunk of the sender's own
        obtain ⟨body, hne, hnext, hcut, hle⟩ := chunksFrom_next hlt
        rw [List.filter_cons_of_pos (by simpa using hi), hnext, List.forall₂_cons] at hchunks
        obtain ⟨hchunk, hrest⟩ := hchunks
        obtain ⟨hmp, hmb⟩ := path_body_of_isChunk hlf hchunk
        have hok := hanswered.1 hi
        have hbody : 0 < body.length := List.length_pos_iff.2 hne
        have hplace : m.place ≠ 0 := by
          rw [hchunk.1]
          exact_mod_cast hpos.ne'
        have hput : service.put m = service.goOn m := by
          rcases put_cases service m with ⟨-, hbad⟩ | ⟨-, hput⟩
          · exact absurd hok hbad
          · rw [hput, start_of_ne hplace]
        rw [hput] at hok
        have hdata : wrote ++ m.body = data.take (wrote.length + m.body.length) := by
          rw [hmb, ← hcut, ← hwrote]
        obtain ⟨hwhole, hmore⟩ := chunk_goOn hkept howns hmp hchunk.1 hchunk.2.1 hok hdata hleft
        rw [hmb] at hwhole hmore hdata
        have hnow : service.step m = (service.goOn m).1 := congrArg Prod.fst hput
        rw [Run.run_cons, hnow]
        rcases Nat.lt_or_eq_of_le hle with hlt' | heq
        · refine ih (hnow ▸ kept_put hkept m) (hmore hlt') ?_ ?_ ?_ hlast' ?_ (hnow ▸ hanswered.2)
            halone'
          · rw [List.length_append]
            omega
          · rw [List.length_append]
            exact hlt'
          · rw [List.length_append]
            exact hdata
          · rw [List.length_append]
            exact hrest
        · -- it was the last, and nothing is after it
          rw [heq, chunksFrom_done le_rfl (by omega), List.forall₂_nil_right_iff] at hrest
          rw [eq_nil_of_last hlast' hrest]
          exact hwhole heq
      · rw [List.filter_cons_of_neg (by simpa using hi)] at hchunks
        exact ih (kept_put hkept m)
          (owns_put howns (fun hs hp => halone m List.mem_cons_self hi hs hp)) hpos hlt hwrote hlast'
          hchunks hanswered.2 halone'

/-- The whole of the chunks. -/
theorem Sent.has {during : List (SyncPut ι)} (h : service.Sent i path data during)
    (hlf : 10 ∉ path) (hkept : service.Kept)
    (hover : ∀ stream, service.out = some stream → service.outPath = path →
      service.outAt ≤ data.length)
    (halone : ∀ m ∈ during, m.sender ≠ i → m.safe = true → m.place = 0 → m.path ≠ path) :
    (Run.run step service during).Has path data := by
  obtain ⟨hfirst, hlast, hchunks, hanswered⟩ := h
  cases during with
  | nil => exact absurd hfirst (by simp)
  | cons m during =>
      have hi : m.sender = i := by simpa using hfirst
      have hlast' : ∀ x, during.getLast? = some x → x.sender = i :=
        last_of_cons (fun x hx => by
          rw [hx] at hlast
          exact Option.some.inj hlast)
      obtain ⟨body, rest, hcut, hbody, hle, hdone, hmore⟩ := chunksFrom_zero data
      rw [List.filter_cons_of_pos (by simpa using hi), hcut, List.forall₂_cons] at hchunks
      obtain ⟨hchunk, hrest⟩ := hchunks
      obtain ⟨hmp, hmb⟩ := path_body_of_isChunk hlf hchunk
      have hplace : m.place = 0 := hchunk.1
      have hok := hanswered.1 hi
      have hput : service.put m = (service.start m).goOn m := by
        rcases put_cases service m with ⟨-, hbad⟩ | ⟨-, hput⟩
        · exact absurd hok hbad
        · exact hput
      have hnow : service.step m = ((service.start m).goOn m).1 := congrArg Prod.fst hput
      obtain ⟨left, hleft, howns⟩ := owns_start hkept hplace (hmp ▸ hover)
      rw [hput] at hok
      rw [hmp] at howns
      obtain ⟨hwhole, hopen⟩ := chunk_goOn (kept_start hkept) howns hmp hchunk.1 hchunk.2.1 hok
        (by rw [hmb, List.nil_append, List.length_nil, zero_add]; exact hbody) hleft
      rw [hmb, List.nil_append, List.length_nil, zero_add] at hopen
      rw [hmb, List.length_nil, zero_add] at hwhole
      rw [Run.run_cons, hnow]
      rcases Nat.lt_or_eq_of_le hle with hlt | heq
      · obtain ⟨hpos, rfl⟩ := hmore hlt
        exact has_rest hlf hleft (hnow ▸ kept_put hkept m) (hopen hlt) hpos hlt hbody hlast' hrest
          (hnow ▸ hanswered.2) (fun x hx => halone x (List.mem_cons_of_mem _ hx))
      · rw [hdone heq, List.forall₂_nil_right_iff] at hrest
        rw [eq_nil_of_last hlast' hrest]
        exact hwhole heq

/-- **A file that was sent is there**, if nobody else began its path between its first chunk and its
    last, and the service was not, when the first came, in the middle of the path and further on
    than the file is long. -/
theorem put_whole (hstart : service.out = none) {before during after : List (SyncPut ι)}
    (hlf : 10 ∉ path)
    (hsent : (Run.run step service before).Sent i path data during)
    (hafter : ∀ m ∈ after, m.path ≠ path)
    (hover : ∀ stream, (Run.run step service before).out = some stream →
      (Run.run step service before).outPath = path →
      (Run.run step service before).outAt ≤ data.length)
    (halone : ∀ m ∈ during, m.sender ≠ i → m.safe = true → m.place = 0 → m.path ≠ path) :
    (Run.run step service (before ++ during ++ after)).files path = some data := by
  have hkept : (Run.run step service before).Kept :=
    Run.inv_of_step (I := Kept) (fun _ m h => kept_put h m)
      (fun stream hs => absurd (hstart.symm.trans hs) (by simp)) before
  have hhas := hsent.has hlf hkept hover halone
  rw [Run.run_append, Run.run_append]
  have hstays : (Run.run step (Run.run step (Run.run step service before) during) after).Has path
      data :=
    Run.inv_of_each (I := fun service : SyncService => service.Has path data)
      (fun _ m h hne => has_put h hne) hhas
      (Run.each_of_mem (C := fun _ (m : SyncPut ι) => m.path ≠ path) (fun m hm _ => hafter m hm) _)
  exact hstays.1

/-! ## Two senders of one path

Each sends a file of a chunk and a byte to the path `a`. The second's first chunk comes after the
first's, and the first's second chunk goes on with it. -/

section Two

/-- A service that has been sent nothing. -/
def idle : SyncService where
  fenced := true
  files := fun _ => none
  out := none
  outPath := []
  outAt := 0

/-- A chunk, and a byte, of a sender. -/
def wholeChunk (c : Byte) : Str := List.replicate syncChunk c

/-- A chunk of a sender's file of a chunk and a byte. -/
def sends (i : Bool) (place : ℕ) (body : Str) : SyncPut (Bool) where
  sender := i
  place := place
  total := syncChunk + 1
  data := asc "a" ++ [10] ++ body
  inside := true
  opens := true

/-- The chunks of each sender are in order: of one file after another, from the first on. -/
def InOrder {ι : Type} (ms : List (SyncPut ι)) : Prop :=
  ∃ files : List (Str × Str × ℕ), List.Forall₂
    (fun m (part : Str × Str × (ℕ × Str)) => SyncPut.IsChunk m part.1 part.2.1 part.2.2) ms
    (files.flatMap (fun file => ((chunksFrom file.2.1 0).take file.2.2).map
      (fun chunk => (file.1, file.2.1, chunk))))

theorem length_wholeChunk (c : Byte) : (wholeChunk c).length = syncChunk := List.length_replicate

theorem isChunk_sends (i : Bool) (place : ℕ) (body : Str) {data : Str}
    (h : data.length = syncChunk + 1) : (sends i place body).IsChunk (asc "a") data (place, body) :=
  ⟨rfl, by rw [h]; rfl, rfl⟩

theorem path_body_sends (i : Bool) (place : ℕ) (body : Str) :
    (sends i place body).safe = true ∧ (sends i place body).path = asc "a" ∧
      (sends i place body).body = body := by
  have hchunk : (sends i place body).IsChunk (asc "a") (wholeChunk 0 ++ [0]) (place, body) :=
    isChunk_sends i place body (by rw [List.length_append, length_wholeChunk]; rfl)
  have hlf : (10 : Byte) ∉ asc "a" := by decide
  obtain ⟨hpath, hbody⟩ := path_body_of_isChunk hlf hchunk
  refine ⟨?_, hpath, hbody⟩
  unfold SyncPut.safe
  rw [nl_of_isChunk hlf hchunk, hpath]
  show (true && syncSafe (asc "a") && true) = true
  decide

theorem length_file (c : Byte) (b : Byte) : (wholeChunk c ++ [b]).length = syncChunk + 1 := by
  rw [List.length_append, length_wholeChunk]
  rfl

theorem chunks_file (c : Byte) :
    chunksFrom (wholeChunk c ++ [c]) 0 = [(0, wholeChunk c), (syncChunk, [c])] :=
  chunksFrom_two (length_wholeChunk c) (List.cons_ne_nil _ _) (by simp [syncChunk])

/-- What reaches the service: the first of each, and the second of the first. -/
def twoSenders : List (SyncPut (Bool)) :=
  [sends false 0 (wholeChunk 1), sends true 0 (wholeChunk 2), sends false syncChunk [1]]

theorem inOrder_twoSenders (j : Bool) :
    InOrder (twoSenders.filter (fun m => decide (m.sender = j))) := by
  cases j with
  | false =>
      refine ⟨[(asc "a", wholeChunk 1 ++ [1], 2)], ?_⟩
      show List.Forall₂ _ [sends false 0 (wholeChunk 1), sends false syncChunk [1]] _
      simp only [chunks_file, List.flatMap_cons, List.flatMap_nil, List.append_nil, List.map_cons,
        List.map_nil, List.take_succ_cons, List.take_zero]
      exact .cons (isChunk_sends false 0 _ (length_file 1 1))
        (.cons (isChunk_sends false syncChunk _ (length_file 1 1)) .nil)
  | true =>
      refine ⟨[(asc "a", wholeChunk 2 ++ [2], 1)], ?_⟩
      show List.Forall₂ _ [sends true 0 (wholeChunk 2)] _
      simp only [chunks_file, List.flatMap_cons, List.flatMap_nil, List.append_nil, List.map_cons,
        List.map_nil, List.take_succ_cons, List.take_zero]
      exact .cons (isChunk_sends true 0 _ (length_file 2 2)) .nil

/-- The first sender is answered well of all of its file, and the path is the second's first chunk
    and the first's second. -/
theorem twoSenders_mixed :
    idle.Sent false (asc "a") (wholeChunk 1 ++ [1]) twoSenders ∧
      (Run.run step idle twoSenders).files (asc "a") = some (wholeChunk 2 ++ [1]) := by
  obtain ⟨hsafe₁, hpath₁, hbody₁⟩ := path_body_sends false 0 (wholeChunk 1)
  obtain ⟨hsafe₂, hpath₂, hbody₂⟩ := path_body_sends true 0 (wholeChunk 2)
  obtain ⟨hsafe₃, hpath₃, hbody₃⟩ := path_body_sends false syncChunk [1]
  set m₁ := sends false 0 (wholeChunk 1) with hm₁
  set m₂ := sends true 0 (wholeChunk 2) with hm₂
  set m₃ := sends false syncChunk [1] with hm₃
  have hmore : ∀ (i : Bool) (c : Byte) (m : SyncPut (Bool)), m = sends i 0 (wholeChunk c) →
      m.body = wholeChunk c → (m.body.length : ℤ) < m.total := by
    rintro i c m rfl hbody
    rw [hbody, length_wholeChunk]
    exact Int.lt_succ _
  -- the first chunk of each is taken, and the path is open after it
  set s₁ := idle.step m₁ with hs₁
  set s₂ := s₁.step m₂ with hs₂
  have hfenced₁ : s₁.fenced = true := fenced_put idle m₁
  have hfenced₂ : s₂.fenced = true := (fenced_put s₁ m₂).trans hfenced₁
  have hfirst : (idle.put m₁).2 = 0 ∧ (∃ stream, s₁.out = some stream) ∧ s₁.outPath = m₁.path ∧
      s₁.outAt = m₁.body.length :=
    put_begins rfl hsafe₁ rfl rfl (hmore false 1 m₁ hm₁ hbody₁)
  have hsecond : (s₁.put m₂).2 = 0 ∧ (∃ stream, s₂.out = some stream) ∧ s₂.outPath = m₂.path ∧
      s₂.outAt = m₂.body.length :=
    put_begins hfenced₁ hsafe₂ rfl rfl (hmore true 2 m₂ hm₂ hbody₂)
  have hkept₁ : s₁.Kept := kept_put (fun stream hs => absurd hs (by simp [idle])) m₁
  have hkept₂ : s₂.Kept := kept_put hkept₁ m₂
  -- what is in the file is the second's first chunk
  have hlen : (wholeChunk 2).length = syncChunk := length_wholeChunk 2
  have hbegun : ∃ left : Str, left.length ≤ syncChunk ∧ (s₁.start m₂).Owns m₂.path [] left :=
    owns_start hkept₁ rfl (fun _ _ _ => by rw [hfirst.2.2.2, hbody₁, length_wholeChunk])
  obtain ⟨left, hleft, howns⟩ := hbegun
  have hput₂ : s₁.put m₂ = (s₁.start m₂).goOn m₂ := put_of_safe hfenced₁ hsafe₂
  have hfile : (wholeChunk 2 ++ [1]).length = syncChunk + 1 := length_file 2 1
  have hmine : s₂.Owns m₂.path ([] ++ m₂.body) left := by
    have htotal : m₂.total = (wholeChunk 2 ++ [1] : Str).length := by
      rw [hfile]
      rfl
    have hcut : (wholeChunk 2 ++ [1] : Str).take (wholeChunk 2).length = wholeChunk 2 :=
      List.take_left' rfl
    have hchunk := chunk_goOn (kept_start hkept₁) howns rfl rfl htotal (hput₂ ▸ hsecond.1)
      (by rw [List.nil_append, List.length_nil, zero_add, hbody₂, hcut]) (by rw [hfile]; omega)
    rw [hs₂, step, hput₂]
    refine hchunk.2 ?_
    rw [hfile, hbody₂, hlen, List.length_nil]
    omega
  -- and the first's second chunk goes on with it
  obtain ⟨stream, hout₂⟩ := hsecond.2.1
  have hat₂ : m₃.place = s₂.outAt := by
    show ((syncChunk : ℕ) : ℤ) = s₂.outAt
    rw [hsecond.2.2.2, hbody₂, hlen]
  have hplace₃ : m₃.place ≠ 0 := by
    rw [hat₂, hsecond.2.2.2, hbody₂, hlen]
    decide
  have hput₃ : s₂.put m₃ = s₂.goOn m₃ := by
    rw [put_of_safe hfenced₂ hsafe₃, start_of_ne hplace₃]
  have hok₃ : (s₂.goOn m₃).2 = 0 :=
    goOn_ok hout₂ (hpath₃.trans (hpath₂.symm.trans hsecond.2.2.1.symm)) hat₂
  refine ⟨⟨rfl, rfl, ?_, fun _ => hfirst.1, fun _ => hsecond.1, fun _ => ?_, trivial⟩, ?_⟩
  · show List.Forall₂ _ [m₁, m₃] _
    rw [chunks_file]
    exact .cons (isChunk_sends false 0 _ (length_file 1 1))
      (.cons (isChunk_sends false syncChunk _ (length_file 1 1)) .nil)
  · show (s₂.put m₃).2 = 0
    rw [hput₃]
    exact hok₃
  · have htotal : m₃.total = (wholeChunk 2 ++ [1] : Str).length := by
      rw [hfile]
      rfl
    have hchunk := chunk_goOn hkept₂ hmine (hpath₃.trans hpath₂.symm)
      (by rw [hat₂, hsecond.2.2.2, List.nil_append]) htotal hok₃
      (by rw [hbody₂, hbody₃, List.nil_append, hlen, List.length_singleton,
        List.take_of_length_le hfile.le])
      (by rw [hfile]; omega)
    have hhas := hchunk.1 (by
      rw [hbody₂, hbody₃, List.nil_append, hlen, List.length_singleton, hfile])
    have hrun : Run.run step idle twoSenders = (s₂.goOn m₃).1 := by
      rw [twoSenders, Run.run_cons, Run.run_cons, Run.run_cons, Run.run_nil, ← hm₁, ← hm₂, ← hm₃,
        ← hs₁, ← hs₂, step, hput₃]
    rw [hrun, ← hpath₂]
    exact hhas.1

/-- **The path is not the file the first sender was answered well of.** -/
theorem put_fails : ¬ ∀ (service : SyncService) (before during after : List (SyncPut (Bool)))
    (i : Bool) (path data : Str), service.out = none →
    (∀ j, InOrder ((before ++ during ++ after).filter (fun m => decide (m.sender = j)))) →
    (Run.run step service before).Sent i path data during → (∀ m ∈ after, m.path ≠ path) →
    (Run.run step service (before ++ during ++ after)).files path = some data := by
  intro h
  have hfile := h idle [] twoSenders [] false (asc "a") (wholeChunk 1 ++ [1]) rfl
    (fun j => by
      rw [List.nil_append, List.append_nil]
      exact inOrder_twoSenders j)
    twoSenders_mixed.1 (fun m hm => absurd hm List.not_mem_nil)
  rw [List.nil_append, List.append_nil, twoSenders_mixed.2] at hfile
  have hhead := congrArg List.head? (Option.some.inj hfile)
  have hpos : syncChunk ≠ 0 := by decide
  simp [wholeChunk, List.head?_replicate, hpos] at hhead

/-- A song of a byte is sent, between two puts of another path by another sender. -/
theorem put_whole_song :
    let song : SyncPut (Bool) := ⟨false, 0, 1, asc "a\n" ++ [7], true, true⟩
    let other : SyncPut (Bool) := ⟨true, 0, 2, asc "b\n" ++ [8], true, true⟩
    (Run.run step idle ([other] ++ [song] ++ [other])).files (asc "a") = some [7] := by
  intro song other
  have hsent : (Run.run step idle [other]).Sent false (asc "a") [7] [song] := by
    refine ⟨rfl, rfl, ?_, fun _ => by decide +kernel, trivial⟩
    show List.Forall₂ _ [song] _
    rw [chunksFrom_one (List.cons_ne_nil _ _) (by simp [syncChunk])]
    exact .cons ⟨rfl, rfl, rfl⟩ .nil
  refine put_whole rfl (by decide) hsent ?_ (fun stream _ hpath => ?_) ?_
  · decide +kernel
  · exact absurd hpath (by decide +kernel)
  · decide +kernel

end Two

end SyncService

end ChrysaLisp
