import SpoolIndex.Proofs.Operation.Paths
import SpoolIndex.Proofs.Slice
import SpoolIndex.Proofs.Text.Digits
import SpoolIndex.View.Browse

/-!
# The text of a partition names it

Nothing in the name of a queue is escaped, so it may look like the end of a partition's
text, or like a whole one. But the numbers behind it hold no slash, so the last two
slashes are always those that separate the parts (`Partition.render_inj`). Reports of
partitions put aside and texts of errors therefore name one partition
(`Partition.named_by_text`). In an error the text of a source stands behind that of the
partition; errors with different sources in different queues can be confused, but only
if one queue is named after a partition of the other (`Partition.message_eq_iff`).
-/

namespace SpoolIndex

theorem marks_cases {mark : α} {before before' behind behind' : List α}
    (h : before ++ mark :: behind = before' ++ mark :: behind') :
    (before = before' ∧ behind = behind') ∨
    (∃ between, before' = before ++ mark :: between ∧ behind = between ++ mark :: behind') ∨
    ∃ between, before = before' ++ mark :: between ∧ behind' = between ++ mark :: behind := by
  rcases List.append_eq_append_iff.mp h with ⟨between, he, hmark⟩ | ⟨between, he, hmark⟩
  · cases between with
    | nil => exact .inl ⟨(he.trans (List.append_nil _)).symm, (List.cons.inj hmark).2⟩
    | cons c between =>
      obtain ⟨rfl, rfl⟩ := List.cons.inj hmark
      exact .inr (.inl ⟨between, he, rfl⟩)
  · cases between with
    | nil => exact .inl ⟨he.trans (List.append_nil _), (List.cons.inj hmark).2.symm⟩
    | cons c between =>
      obtain ⟨rfl, rfl⟩ := List.cons.inj hmark
      exact .inr (.inr ⟨between, he, rfl⟩)

theorem lastMark_inj {mark : α} {before before' behind behind' : List α} (hm : mark ∉ behind)
    (hm' : mark ∉ behind') (h : before ++ mark :: behind = before' ++ mark :: behind') :
    before = before' ∧ behind = behind' := by
  rcases marks_cases h with hsame | ⟨_, -, rfl⟩ | ⟨_, -, rfl⟩
  · exact hsame
  · exact absurd (List.mem_append_right _ List.mem_cons_self) hm
  · exact absurd (List.mem_append_right _ List.mem_cons_self) hm'

theorem mark_in_front {mark : α} {front tail before behind : List α} (hm : mark ∉ tail)
    (h : front ++ tail = before ++ mark :: behind) :
    ∃ rest, front = before ++ mark :: rest ∧ behind = rest ++ tail := by
  rcases List.append_eq_append_iff.mp h with ⟨rest, -, rfl⟩ | ⟨rest, rfl, hbehind⟩
  · exact absurd (List.mem_append_right _ List.mem_cons_self) hm
  · cases rest with
    | nil =>
      rw [List.nil_append] at hbehind
      exact absurd (hbehind ▸ List.mem_cons_self) hm
    | cons c rest =>
      obtain ⟨rfl, rfl⟩ := List.cons.inj hbehind
      exact ⟨rest, rfl, rfl⟩

namespace Partition

variable {p q : Partition} {e f : Error}

-- ---------------------------------------------------------------------------
-- The parts of a text
-- ---------------------------------------------------------------------------

theorem not_mem_slice {c : Char} (s : Slice) (hc : c.isDigit = false) (hm : c ≠ '-') :
    c ∉ (toString s).toList := by
  intro h
  rcases Digits.of_mem_toString h with rfl | hd
  · exact hm rfl
  · exact Bool.false_ne_true (hc.symm.trans hd)

theorem toList_bucket (b : Bucket) : (toString b).toList = Nat.toDigits 10 b.id.toNat :=
  Nat.toList_repr

theorem not_mem_bucket {c : Char} (b : Bucket) (hc : c.isDigit = false) :
    c ∉ (toString b).toList := by
  intro h
  rw [toList_bucket] at h
  have hd : c.isDigit := Nat.isDigit_of_mem_toDigits (by decide) (by decide) h
  exact Bool.false_ne_true (hc.symm.trans hd)

theorem slice_inj {s s' : Slice} (h : (toString s).toList = (toString s').toList) : s = s' :=
  Slice.ext_index (Digits.toString_inj h)

theorem bucket_inj {b b' : Bucket} (h : (toString b).toList = (toString b').toList) : b = b' := by
  rw [toList_bucket, toList_bucket] at h
  have hid : b.id = b'.id := UInt32.toNat_inj.mp (Digits.toDigits_inj h)
  cases b; cases b'; cases hid; rfl

theorem toList_render (p : Partition) :
    p.render.toList = p.queue.text.toList ++ '/' :: (toString p.slice).toList ++
      '/' :: (toString p.bucket).toList := by
  simp [render]

/-- The last two slashes are those that separate the parts. -/
theorem render_inj : p.render = q.render ↔ p = q := by
  refine ⟨fun h => ?_, fun h => congrArg render h⟩
  have hlists := congrArg String.toList h
  rw [toList_render, toList_render] at hlists
  obtain ⟨hfront, hbucket⟩ :=
    lastMark_inj (not_mem_bucket _ (by decide)) (not_mem_bucket _ (by decide)) hlists
  obtain ⟨hqueue, hslice⟩ := lastMark_inj (not_mem_slice _ (by decide) (by decide))
    (not_mem_slice _ (by decide) (by decide)) hfront
  obtain ⟨⟨name⟩, slice, bucket⟩ := p
  obtain ⟨⟨name'⟩, slice', bucket'⟩ := q
  cases String.toList_inj.mp hqueue
  cases slice_inj hslice
  cases bucket_inj hbucket
  rfl

-- ---------------------------------------------------------------------------
-- Texts of errors
-- ---------------------------------------------------------------------------

def tail (p : Partition) : String := "/" ++ toString p.slice ++ "/" ++ toString p.bucket

theorem render_eq (p : Partition) : p.render = p.queue.text ++ p.tail := by
  simp only [render, tail, String.append_assoc]

theorem not_mem_tail (p : Partition) {c : Char} (hd : c.isDigit = false) (hm : c ≠ '-')
    (hs : c ≠ '/') : c ∉ p.tail.toList := by
  simp [tail, not_mem_slice p.slice hd hm, not_mem_bucket p.bucket hd, hs]

theorem message_partition (p : Partition) (e : Error) : (Error.partition p e).message =
    "failed to scan partition " ++ p.render ++ ": " ++ e.message := rfl

/-- The queue of `q` is named after `p`, and the error `e` begins with the rest of that name and
the numbers of `q`. Then `e` in `p` reads like `f` in `q`. -/
def PassesFor (q : Partition) (f : Error) (p : Partition) (e : Error) : Prop :=
  ∃ rest, q.queue.text = p.render ++ ": " ++ rest ∧ e.message = rest ++ q.tail ++ ": " ++ f.message

theorem PassesFor.message_eq (h : q.PassesFor f p e) :
    (Error.partition p e).message = (Error.partition q f).message := by
  obtain ⟨rest, hname, he⟩ := h
  rw [message_partition, message_partition, he, q.render_eq, hname]
  simp only [String.append_assoc]

theorem PassesFor.unshared (h : q.PassesFor f p e) :
    ¬(p.queue = q.queue ∨ e.message = f.message) := by
  obtain ⟨rest, hname, he⟩ := h
  have hmark : ": ".length = 2 := rfl
  have hlonger : p.queue.text.length < q.queue.text.length := by
    simp only [hname, p.render_eq, String.length_append]
    omega
  have hlonger' : f.message.length < e.message.length := by
    simp only [he, String.length_append]
    omega
  rintro (hsame | hsame)
  · rw [hsame] at hlonger
    exact Nat.lt_irrefl _ hlonger
  · rw [hsame] at hlonger'
    exact Nat.lt_irrefl _ hlonger'

theorem passesFor_of_toList {between : List Char}
    (hq : q.render.toList = p.render.toList ++ ':' :: between)
    (he : ' ' :: e.message.toList = between ++ ':' :: ' ' :: f.message.toList) :
    q.PassesFor f p e := by
  rw [render_eq, String.toList_append] at hq
  obtain ⟨rest, hname, rfl⟩ :=
    mark_in_front (q.not_mem_tail (by decide) (by decide) (by decide)) hq
  cases rest with
  | nil => simp [tail] at he
  | cons c rest =>
    obtain ⟨rfl, he⟩ := List.cons.inj he
    refine ⟨String.ofList rest, String.toList_inj.mp ?_, String.toList_inj.mp ?_⟩
    · simpa using hname
    · simpa using he

/-- Two errors in partitions have the same text only if partition and text of the source are the
same, or if the name of one queue takes in the other partition and a part of its source. -/
theorem message_eq_iff : (Error.partition p e).message = (Error.partition q f).message ↔
    (p = q ∧ e.message = f.message) ∨ q.PassesFor f p e ∨ p.PassesFor e q f := by
  constructor
  · intro h
    rw [message_partition, message_partition] at h
    simp only [String.append_assoc, String.append_right_inj] at h
    have hlists : p.render.toList ++ ':' :: ' ' :: e.message.toList =
        q.render.toList ++ ':' :: ' ' :: f.message.toList := by
      simpa using congrArg String.toList h
    rcases marks_cases hlists with ⟨hp, he⟩ | ⟨between, hq, he⟩ | ⟨between, hp, hf⟩
    · exact .inl ⟨render_inj.mp (String.toList_inj.mp hp),
        String.toList_inj.mp (List.cons.inj he).2⟩
    · exact .inr (.inl (passesFor_of_toList hq he))
    · exact .inr (.inr (passesFor_of_toList hp hf))
  · rintro (⟨rfl, he⟩ | h | h)
    · rw [message_partition, message_partition, he]
    · exact h.message_eq
    · exact h.message_eq.symm

example : (Error.partition ⟨⟨"spool"⟩, .clamp 1, ⟨1⟩⟩ (.unavailable "mail/2/2: down")).message =
    (Error.partition ⟨⟨"spool/1/1: storage unavailable: mail"⟩, .clamp 2, ⟨2⟩⟩
      (.other "down")).message := by decide

end Partition

namespace Browse

variable {p q : Partition} {e f : Error} {path : List Exchange}

/-- What a browse does when it puts a partition aside, up to what it hands on. -/
def PutsAside (p : Partition) (e : Error) (path : List Exchange) : Prop :=
  ∃ (v : View) (b : Browse) (r : Progress (Except Error Item) × Browse),
    v.failurePolicy = .skipAndContinue ∧ b.stopped = false ∧
      (deliver v b (.error (.partition p e))).Ends path r

def notice (p : Partition) (e : Error) : List Exchange :=
  [⟨.report (.enter "view.browse"), ()⟩,
    ⟨.report (.event .warn ("skipping partition: " ++ e.message)
      [("partition", .text p.render)]), ()⟩,
    ⟨.report .leave, ()⟩,
    ⟨.report (.count .partitionFailures [("policy", "skip_and_continue")]), ()⟩]

theorem putsAside_iff : PutsAside p e path ↔ path = notice p e := by
  constructor
  · rintro ⟨v, b, r, hv, hb, h⟩
    unfold deliver at h
    rw [hb, hv] at h
    obtain ⟨_, _, _, rfl, hspan, hcounting⟩ := Operation.Ends.of_bind h
    obtain ⟨_, _, _, rfl, henter, hwarning⟩ := hspan.of_bind
    obtain ⟨_, _, _, rfl, hevent, hleaving⟩ := hwarning.of_bind
    obtain ⟨_, _, _, rfl, hleave, hleft⟩ := hleaving.of_bind
    obtain ⟨_, _, _, rfl, hcount, hlast⟩ := hcounting.of_bind
    obtain rfl := henter.of_perform
    obtain rfl := hevent.of_perform
    obtain rfl := hleave.of_perform
    obtain ⟨rfl, -⟩ := hleft.of_done
    obtain rfl := hcount.of_perform
    obtain ⟨rfl, -⟩ := hlast.of_done
    rfl
  · rintro rfl
    exact ⟨{ (default : View) with failurePolicy := .skipAndContinue }, empty p.queue, _, rfl, rfl,
      .act (.act (.act (.act (.done _))))⟩

theorem notice_inj (h : notice p e = notice q f) : p = q := by
  have hevent := (List.cons.inj (List.cons.inj h).2).1
  have hreport := Action.report.inj (congrArg Exchange.action hevent)
  have hfield := (List.cons.inj (Report.event.inj hreport).2.2).1
  exact Partition.render_inj.mp (Field.text.inj (Prod.mk.inj hfield).2)

end Browse

namespace Partition

variable (p q : Partition)

/-- Partitions of one text are the same. So what is reported of a partition that is put aside names
that partition alone, and so does the text of an error, among the partitions of its queue whatever
the source, and among all partitions for one text of the source. Apart from that, two errors read
alike exactly if one queue is named after the other partition and takes in a part of its source. -/
theorem named_by_text :
    (p.render = q.render ↔ p = q) ∧
    (∀ e f path, Browse.PutsAside p e path → Browse.PutsAside q f path → p = q) ∧
    (∀ e f, p.queue = q.queue ∨ e.message = f.message →
      (Error.partition p e).message = (Error.partition q f).message → p = q) ∧
    (∀ e f, (Error.partition p e).message = (Error.partition q f).message ↔
      (p = q ∧ e.message = f.message) ∨ q.PassesFor f p e ∨ p.PassesFor e q f) := by
  refine ⟨render_inj, ?_, ?_, fun _ _ => message_eq_iff⟩
  · intro e f path hp hq
    exact Browse.notice_inj ((Browse.putsAside_iff.mp hp).symm.trans (Browse.putsAside_iff.mp hq))
  · intro e f hshared h
    rcases message_eq_iff.mp h with ⟨hp, -⟩ | h | h
    · exact hp
    · exact absurd hshared h.unshared
    · exact absurd (hshared.imp Eq.symm Eq.symm) h.unshared

end Partition

namespace Sample

/-- A queue whose name looks like a queue and a slice. -/
def lastSpool : Partition := ⟨⟨"spool/1"⟩, Slice.max, ⟨0⟩⟩

def spoolBeyond : Partition := ⟨⟨"spool/1"⟩, Slice.clamp 9223372036854775808, ⟨0⟩⟩

/-- Two errors of one text name the same partition, put aside or handed on. -/
theorem lastSpool_named :
    (∃ path, Browse.PutsAside lastSpool (.unavailable "down") path ∧
      Browse.PutsAside spoolBeyond (.other "storage unavailable: down") path ∧
      lastSpool = spoolBeyond) ∧
    (Error.unavailable "down").message = (Error.other "storage unavailable: down").message ∧
    (Error.partition lastSpool (.unavailable "down")).message =
      (Error.partition spoolBeyond (.other "storage unavailable: down")).message ∧
    lastSpool = spoolBeyond := by
  obtain ⟨-, haside, hmessage, -⟩ := Partition.named_by_text lastSpool spoolBeyond
  have htext : lastSpool.render = spoolBeyond.render := by decide
  have hsource : (Error.unavailable "down").message =
      (Error.other "storage unavailable: down").message := by decide
  have hfirst := Browse.putsAside_iff.mpr (Eq.refl (Browse.notice lastSpool (.unavailable "down")))
  have hsecond : Browse.PutsAside spoolBeyond (.other "storage unavailable: down")
      (Browse.notice lastSpool (.unavailable "down")) := by
    rw [Browse.putsAside_iff, Browse.notice, Browse.notice, htext, hsource]
  have hsame : (Error.partition lastSpool (.unavailable "down")).message =
      (Error.partition spoolBeyond (.other "storage unavailable: down")).message := by
    rw [Partition.message_partition, Partition.message_partition, htext, hsource]
  exact ⟨⟨_, hfirst, hsecond, haside _ _ _ hfirst hsecond⟩, hsource, hsame,
    hmessage _ _ (.inr hsource) hsame⟩

end Sample

end SpoolIndex
