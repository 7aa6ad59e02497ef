import SmallTalk.Data.JsonText
import SmallTalk.Principal.Signature

/-!
# Principal — what a signature over fields binds

A device signs a request as lines of text (`fieldsSigningBytes`). The text carries no field
count and no lengths, and a field name may hold any character, so two requests may have one text.

* `Unambiguous`: the requests whose text binds them: one field, and no newline in what stands
  before it.
* `request_binds_iff`: exactly these bind what they say.
-/

namespace SmallTalk.Principal

open List

open Json (chars)

/-! ### Requests -/

/-- A request a device signed: the parts of a claim and a signature that its text is made of.
A signature that names no field is refused, so a request names one. -/
structure FieldsRequest where
  subject : String
  kind : String
  actor : Option String
  fields : Json
  signedFields : List String
  signer : String
  onBehalf : Option String
  key : String
  chain : List String
  nonce : String
  signedAtUnixMs : ℕ
  named : signedFields ≠ []

namespace FieldsRequest

variable (r : FieldsRequest) (subject kind actor name : List Char)

def names : List String := Sorted.sortedSet r.signedFields

def bytes : String :=
  fieldsSigningBytes r.subject r.kind r.actor r.fields r.signedFields r.signer r.onBehalf r.key
    r.chain r.nonce r.signedAtUnixMs

/-- The lines after the fields. -/
def tail : String :=
  signerText r.signer r.onBehalf r.key r.chain r.nonce r.signedAtUnixMs

/-- The request a claim and its signature make. -/
def of (claim : Judged) (sig : ClaimSignature) (named : sig.signedFields ≠ []) : FieldsRequest :=
  ⟨claim.subject, claim.kind, claim.actor, claim.fields, sig.signedFields, sig.signer,
    sig.onBehalf, sig.key, sig.chain, sig.nonce, sig.signedAtUnixMs, named⟩

/-- A claim agrees with a request on what the request signed. -/
structure Agrees (r : FieldsRequest) (claim : Judged) : Prop where
  subject : claim.subject = r.subject
  kind : claim.kind = r.kind
  actor : claim.actor = r.actor
  fields : ∀ name ∈ r.signedFields,
    signedValue claim.fields name = signedValue r.fields name

/-- The text of a request has one reading: an actor is named, one field is signed, no newline
stands before the value of that field, and the lines after it cannot be read as another field
with the six last lines still after it. -/
structure Unambiguous (r : FieldsRequest) : Prop where
  subject : '\n' ∉ r.subject.toList
  kind : '\n' ∉ r.kind.toList
  actor : ∃ actor, r.actor = some actor ∧ actor ≠ "" ∧ '\n' ∉ actor.toList
  field : ∃ name, r.names = [name] ∧ '\n' ∉ name.toList
  tail : ∀ (name : List Char) (value : Json) (rest : List Char),
    r.tail.toList = name ++ '=' :: (chars value.canonical ++ '\n' :: rest) → rest.count '\n' < 5

/-! ### The text as characters -/

/-- `NAME=VALUE` without its newline. -/
def assignment (name : List Char) (value : Json) : List Char := name ++ '=' :: chars value

/-- The text before the last value, for the parts before the fields and the characters between
them and that value. -/
def lead : List Char :=
  subject ++ '\n' :: (kind ++ '\n' :: (actor ++ '\n' :: name))

theorem lead_count : (lead subject kind actor name).count '\n' =
      subject.count '\n' + kind.count '\n' + actor.count '\n' + name.count '\n' + 3 := by
  simp only [lead, count_append, count_cons_self]
  omega

/-- Field lines are an assignment on one line: all names and values before the last one are part
of its name. -/
theorem fieldLines_eq (fields : Json) {names : List String} (hne : names ≠ []) :
    ∃ name last, last ∈ names ∧
      (fieldLines fields names).toList = assignment name (signedValue fields last) ++ ['\n'] ∧
      (name.count '\n' = 0 → names = [last] ∧ name = last.toList) := by
  induction names with
  | nil => exact absurd rfl hne
  | cons n names ih =>
    have hcons : (fieldLines fields (n :: names)).toList =
        assignment n.toList (signedValue fields n) ++
          '\n' :: (fieldLines fields names).toList := by
      simp [fieldLines, assignment, chars, String.toList_append]
    cases names with
    | nil =>
      refine ⟨n.toList, n, mem_singleton_self n, ?_, fun _ => ⟨rfl, rfl⟩⟩
      rw [hcons]
      rfl
    | cons m names =>
      obtain ⟨name, last, hlast, hlines, -⟩ := ih (cons_ne_nil _ _)
      refine ⟨assignment n.toList (signedValue fields n) ++ '\n' :: name, last,
        mem_cons_of_mem _ hlast, ?_, fun hzero => ?_⟩
      · rw [hcons, hlines]
        simp [assignment]
      · rw [count_append, count_cons_self] at hzero
        omega

theorem names_ne_nil : r.names ≠ [] := by
  obtain ⟨n, ns, h⟩ := exists_cons_of_ne_nil r.named
  exact ne_nil_of_mem (Sorted.mem_sortedSet.mpr (h ▸ mem_cons_self : n ∈ r.signedFields))

/-- The characters of a request's text, after the domain. -/
def layout (value : Json) (tail : List Char) : List Char :=
  assignment (lead subject kind actor name) value ++ '\n' :: tail

theorem bytes_toList {name : List Char} {value : Json}
    (h : (fieldLines r.fields r.names).toList = assignment name value ++ ['\n']) :
    r.bytes.toList = fieldsDomain.toList ++ '\n' ::
      layout r.subject.toList r.kind.toList (r.actor.getD "").toList name value r.tail.toList := by
  simp only [names] at h
  simp [bytes, fieldsSigningBytes, layout, lead, tail, String.toList_append, h, assignment]

theorem assignment_count (name : List Char) (value : Json) :
    (assignment name value).count '\n' = name.count '\n' := by
  have hv : (chars value).count '\n' = 0 :=
    count_eq_zero.mpr (Json.newline_notMem_chars value)
  simp [assignment, count_append, hv]

theorem lead_inj {s k a n s' k' a' n' : List Char} (hs : '\n' ∉ s) (hk : '\n' ∉ k)
    (ha : '\n' ∉ a) (hn : '\n' ∉ n) (h : lead s k a n = lead s' k' a' n') :
    s = s' ∧ k = k' ∧ a = a' ∧ n = n' := by
  have lines : ∀ {s k a n : List Char}, '\n' ∉ s → '\n' ∉ k → '\n' ∉ a → '\n' ∉ n →
      (lead s k a n).splitOn '\n' = [s, k, a, n] := by
    intro s k a n hs hk ha hn
    have : lead s k a n = ['\n'].intercalate [s, k, a, n] := by
      simp [lead, List.intercalate]
    rw [this]
    exact splitOn_intercalate _ (by simp [hs, hk, ha, hn]) (cons_ne_nil _ _)
  have hcount := congrArg (List.count '\n') h
  rw [lead_count, lead_count, count_eq_zero.mpr hs, count_eq_zero.mpr hk,
    count_eq_zero.mpr ha, count_eq_zero.mpr hn] at hcount
  have hsplit := congrArg (List.splitOn '\n') h
  rw [lines hs hk ha hn, lines (count_eq_zero.mp (by omega))
    (count_eq_zero.mp (by omega)) (count_eq_zero.mp (by omega))
    (count_eq_zero.mp (by omega))] at hsplit
  simpa using hsplit

/-- A newline stands after the last value in both readings. Where the second one stands later,
the first one's tail holds the second one's last field. -/
theorem layout_inj {s k a n s' k' a' n' tail tail' : List Char} {value value' : Json}
    (hs : '\n' ∉ s) (hk : '\n' ∉ k) (ha : '\n' ∉ a) (hn : '\n' ∉ n)
    (htail : ∀ name, tail ≠ name ++ '=' :: (chars value' ++ '\n' :: tail'))
    (h : layout s k a n value tail = layout s' k' a' n' value' tail') :
    s = s' ∧ k = k' ∧ a = a' ∧ n = n' ∧ value = value' := by
  have three : (lead s k a n).count '\n' = 3 := by
    rw [lead_count, count_eq_zero.mpr hs, count_eq_zero.mpr hk,
      count_eq_zero.mpr ha, count_eq_zero.mpr hn]
  have same : assignment (lead s k a n) value = assignment (lead s' k' a' n') value' := by
    rcases append_eq_append_iff.mp h with ⟨c, hc, hrest⟩ | ⟨c, hc, hrest⟩
    · cases c with
      | nil => simpa using hc.symm
      | cons x c =>
        obtain ⟨rfl, htl⟩ := List.cons.inj hrest
        -- The second reading's value has no newline, so its equals sign stands in the tail.
        rcases append_eq_append_iff.mp hc with ⟨d, -, hd⟩ | ⟨d, -, hd⟩
        · have : '\n' ∈ '=' :: chars value' := hd ▸ by simp
          simp [Json.newline_notMem_chars] at this
        · cases d with
          | nil => simp at hd
          | cons y d =>
            refine absurd ?_ (htail d)
            rw [htl, (List.cons.inj hd).2]
            simp
    · cases c with
      | nil => simpa using hc
      | cons x c =>
        obtain ⟨rfl, -⟩ := List.cons.inj hrest
        have hcount := congrArg (List.count '\n') hc
        rw [count_append, assignment_count, assignment_count, three, lead_count,
          count_cons_self] at hcount
        omega
  obtain ⟨hlead, hvalue⟩ := Json.eq_of_append_text same
  obtain ⟨h₁, h₂, h₃, h₄⟩ := lead_inj hs hk ha hn hlead
  exact ⟨h₁, h₂, h₃, h₄, hvalue⟩

/-! ### The lines after the fields -/

theorem tail_toList : r.tail.toList =
    r.signer.toList ++ '\n' :: ((r.onBehalf.getD "").toList ++ '\n' :: (r.key.toList ++ '\n' ::
      ((String.intercalate "," r.chain).toList ++ '\n' :: (r.nonce.toList ++ '\n' ::
        (toString r.signedAtUnixMs).toList)))) := by
  simp [FieldsRequest.tail, signerText, String.toList_append]

theorem newline_notMem_decimal (n : ℕ) : '\n' ∉ (toString n).toList := fun h =>
  absurd (Json.isDigit_of_mem_repr h) (by decide)

theorem tail_count : 5 ≤ r.tail.toList.count '\n' := by
  rw [tail_toList]
  simp only [count_append, count_cons_self]
  omega

/-- The first of several lines. -/
theorem exists_line {l : List Char} {n : ℕ} (h : n + 1 ≤ l.count '\n') :
    ∃ line rest, l = line ++ '\n' :: rest ∧ n ≤ rest.count '\n' := by
  obtain ⟨line, rest, rfl, hline⟩ :=
    eq_append_cons_of_mem (count_pos_iff.mp (show 0 < l.count '\n' by omega))
  refine ⟨line, rest, rfl, ?_⟩
  rw [count_append, count_cons_self, count_eq_zero.mpr hline] at h
  omega

/-- Five newlines before a time make the lines after the fields. -/
theorem exists_tail {l : List Char} (h : 4 ≤ l.count '\n') : ∃ other : FieldsRequest,
    other.tail.toList = l ++ '\n' :: (toString r.signedAtUnixMs).toList := by
  obtain ⟨a, l₁, rfl, h₁⟩ := exists_line h
  obtain ⟨b, l₂, rfl, h₂⟩ := exists_line h₁
  obtain ⟨c, l₃, rfl, h₃⟩ := exists_line h₂
  obtain ⟨d, e, rfl, -⟩ := exists_line h₃
  refine ⟨{ r with
    signer := String.ofList a, onBehalf := some (String.ofList b), key := String.ofList c,
    chain := [String.ofList d], nonce := String.ofList e }, ?_⟩
  rw [tail_toList]
  simp

/-- A part of a request's tail that still holds newlines ends in its time. -/
theorem ends_in_time (before l : List Char) {rest digits : List Char} (hdigits : '\n' ∉ digits)
    (hrest : '\n' ∈ rest) (h : before ++ rest = l ++ '\n' :: digits) :
    ∃ m, rest = m ++ '\n' :: digits := by
  rcases append_eq_append_iff.mp h with ⟨c, -, hc⟩ | ⟨c, -, hc⟩
  · exact ⟨c, hc⟩
  · cases c with
    | nil => exact ⟨[], hc.symm⟩
    | cons x c =>
      obtain ⟨-, hd⟩ := List.cons.inj hc
      exact absurd (hd ▸ mem_append_right c hrest) hdigits

/-! ### Which requests their text binds -/

/-- Every claim and signature over fields with the text of the request agree with it. -/
def Binds : Prop :=
  ∀ (claim : Judged) (sig : ClaimSignature), sig.format = some fieldsFormat →
    sig.signedBytes claim = some r.bytes → r.Agrees claim

theorem signedBytes_eq {claim : Judged} {sig : ClaimSignature} {bytes : String}
    (hf : sig.format = some fieldsFormat) (h : sig.signedBytes claim = some bytes) :
    ∃ named, (of claim sig named).bytes = bytes := by
  simp only [ClaimSignature.signedBytes, hf, true_and] at h
  by_cases hne : sig.signedFields = []
  · simp [hne] at h
  · rw [if_pos hne] at h
    exact ⟨hne, Option.some.inj h⟩

theorem Unambiguous.binds {r : FieldsRequest} (hr : r.Unambiguous) : r.Binds := by
  intro claim sig hf hbytes
  obtain ⟨named, hbytes⟩ := signedBytes_eq hf hbytes
  obtain ⟨actor, hactor, hactorne, hactornl⟩ := hr.actor
  obtain ⟨field, hnames, hfieldnl⟩ := hr.field
  have hlines : (fieldLines r.fields r.names).toList =
      assignment field.toList (signedValue r.fields field) ++ ['\n'] := by
    rw [hnames]
    simp [fieldLines, assignment, chars, String.toList_append]
  obtain ⟨name', last', -, hlines', hone⟩ :=
    fieldLines_eq claim.fields (names_ne_nil (of claim sig named))
  have htext := congrArg String.toList hbytes.symm
  rw [bytes_toList r hlines, bytes_toList (of claim sig named) hlines', hactor] at htext
  obtain ⟨hs, hk, ha, hn, hvalue⟩ :=
    layout_inj hr.subject hr.kind hactornl hfieldnl
      (fun name hname => absurd (hr.tail name _ _ hname)
        (Nat.not_lt.mpr (tail_count _)))
      (List.cons.inj (append_cancel_left htext)).2
  obtain ⟨-, hname'⟩ := hone (by rw [← hn]; exact count_eq_zero.mpr hfieldnl)
  have hlast : field = last' := String.toList_inj.mp (hn.trans hname')
  refine ⟨(String.toList_inj.mp hs).symm, (String.toList_inj.mp hk).symm, ?_, ?_⟩
  · have hget : claim.actor.getD "" = actor := (String.toList_inj.mp ha).symm
    cases hc : claim.actor with
    | none =>
      rw [hc] at hget
      exact absurd hget.symm hactorne
    | some a =>
      rw [hc] at hget
      rw [hactor, ← hget]
      rfl
  · intro name hname
    have : name ∈ r.names := Sorted.mem_sortedSet.mpr hname
    rw [hnames, mem_singleton] at this
    rw [this, hvalue, hlast]
    rfl

/-- A second reading of the text is a claim and a signature with one field. -/
theorem Binds.reading {r : FieldsRequest} (hb : r.Binds) (other : FieldsRequest)
    {s k a n : List Char} {value : Json} (h : r.bytes.toList = fieldsDomain.toList ++ '\n' ::
      layout s k a n value.canonical other.tail.toList) (actor : Option String) (hactor : (actor.getD "").toList = a) :
    s = r.subject.toList ∧ k = r.kind.toList ∧ actor = r.actor := by
  let claim : Judged :=
    ⟨"", String.ofList s, String.ofList k, actor, "", .obj [(String.ofList n, value)]⟩
  let sig : ClaimSignature :=
    ⟨other.signer, other.onBehalf, other.key, other.chain, other.nonce, other.signedAtUnixMs, "",
      some fieldsFormat, [String.ofList n]⟩
  have hlines : (fieldLines claim.fields (of claim sig (cons_ne_nil _ _)).names).toList =
      assignment n value.canonical ++ ['\n'] := by
    have : (of claim sig (cons_ne_nil _ _)).names = [String.ofList n] := rfl
    rw [this]
    simp [fieldLines, assignment, chars, String.toList_append, signedValue, claim, Json.get,
      List.lookup_cons]
  have hbytes : sig.signedBytes claim = some r.bytes := by
    refine congrArg some (String.toList_inj.mp ?_)
    refine (bytes_toList (of claim sig (cons_ne_nil _ _)) hlines).trans ?_
    rw [h, ← hactor]
    simp [claim, of, FieldsRequest.tail, sig]
  obtain ⟨hs, hk, ha, -⟩ := hb claim sig rfl hbytes
  refine ⟨?_, ?_, ha⟩
  · rw [← hs]
    exact String.toList_ofList.symm
  · rw [← hk]
    exact String.toList_ofList.symm

/-- Where the text has a newline in front of its last value, it has another reading. -/
theorem layout_shift (s k a n x y tail : List Char) (value : Json) :
    layout (x ++ '\n' :: y) k a n value tail = layout x y k (a ++ '\n' :: n) value tail ∧
    layout s (x ++ '\n' :: y) a n value tail = layout s x y (a ++ '\n' :: n) value tail ∧
    layout s k (x ++ '\n' :: y) n value tail = layout s k x (y ++ '\n' :: n) value tail ∧
    layout s k a (x ++ '\n' :: y) value tail = layout s k (a ++ '\n' :: x) y value tail := by
  simp [layout, assignment, lead]

theorem Binds.unambiguous {r : FieldsRequest} (hb : r.Binds) : r.Unambiguous := by
  obtain ⟨name, last, -, hlines, hone⟩ := fieldLines_eq r.fields (names_ne_nil r)
  have htext := bytes_toList r hlines
  -- An actor is named and is not empty: the text of no actor is that of an empty one.
  obtain ⟨actor, hactor⟩ : ∃ actor, r.actor = some actor :=
    ⟨_, ((hb.reading r htext (some (r.actor.getD "")) rfl).2.2).symm⟩
  rw [hactor, Option.getD_some] at htext
  have hne : actor ≠ "" := by
    rintro rfl
    exact absurd ((hb.reading r htext none rfl).2.2.trans hactor) (by simp)
  -- In each other reading with a longer actor, the actor is the one named.
  have same_actor : ∀ (more n : List Char) (value : Json) (other : FieldsRequest),
      r.bytes.toList ≠ fieldsDomain.toList ++ '\n' :: layout r.subject.toList r.kind.toList
        (actor.toList ++ '\n' :: more) n value.canonical other.tail.toList := by
    intro more n value other h
    have hread := (hb.reading other h (some (String.ofList (actor.toList ++ '\n' :: more)))
      String.toList_ofList).2.2
    rw [hactor, Option.some.injEq] at hread
    simpa using (congrArg String.toList hread).symm
  refine ⟨?_, ?_, ⟨actor, hactor, hne, ?_⟩, ⟨last, ?_⟩, ?_⟩
  · intro hmem
    obtain ⟨x, y, hxy⟩ := append_of_mem hmem
    rw [hxy, (layout_shift [] _ _ _ x y _ _).1] at htext
    simpa using (hb.reading r htext (some r.kind) rfl).1.trans hxy
  · intro hmem
    obtain ⟨x, y, hxy⟩ := append_of_mem hmem
    rw [hxy, (layout_shift _ [] _ _ x y _ _).2.1] at htext
    simpa using (hb.reading r htext (some (String.ofList y)) String.toList_ofList).2.1.trans hxy
  · intro hmem
    obtain ⟨x, y, hxy⟩ := append_of_mem hmem
    rw [hxy, (layout_shift _ _ [] _ x y _ _).2.2.1] at htext
    have hread := (hb.reading r htext (some (String.ofList x)) String.toList_ofList).2.2
    rw [hactor, Option.some.injEq] at hread
    simpa [hxy] using congrArg String.toList hread
  · have hname : '\n' ∉ name := by
      intro hmem
      obtain ⟨x, y, rfl⟩ := append_of_mem hmem
      rw [(layout_shift _ _ _ [] x y _ _).2.2.2] at htext
      exact same_actor x y _ r htext
    obtain ⟨hnames, rfl⟩ := hone (count_eq_zero.mpr hname)
    exact ⟨hnames, hname⟩
  · -- A field in the tail: everything before it goes to the actor.
    intro field value rest htail
    by_contra hcount
    have hmem : '\n' ∈ rest := count_pos_iff.mp (by omega)
    obtain ⟨m, rfl⟩ := ends_in_time (field ++ '=' :: (chars value.canonical ++ ['\n']))
      (r.signer.toList ++ '\n' :: ((r.onBehalf.getD "").toList ++ '\n' :: (r.key.toList ++
        '\n' :: ((String.intercalate "," r.chain).toList ++ '\n' :: r.nonce.toList))))
      (newline_notMem_decimal r.signedAtUnixMs) hmem
      (by simpa [tail_toList] using htail.symm)
    rw [count_append, count_cons_self,
      count_eq_zero.mpr (newline_notMem_decimal r.signedAtUnixMs)] at hcount
    obtain ⟨other, hother⟩ := r.exists_tail (l := m) (by omega)
    refine same_actor (assignment name (signedValue r.fields last)) field value other
      (htext.trans ?_)
    rw [htail, hother]
    simp [layout, assignment, lead]

/-- **What a signature over fields binds.**  Every claim and signature record with the text of a
request agree with the request exactly when its text is unambiguous. -/
theorem request_binds_iff (r : FieldsRequest) : r.Binds ↔ r.Unambiguous :=
  ⟨Binds.unambiguous, Unambiguous.binds⟩

/-- A message to `agent/alder`, signed over its text and its addressee. -/
def message : FieldsRequest where
  subject := "message/5f"
  kind := "message.sent"
  actor := some "person/ada"
  fields := .obj [("content", .str "hold"), ("to", .str "agent/alder")]
  signedFields := ["content", "to"]
  signer := "person/ada"
  onBehalf := none
  key := "p256:k"
  chain := ["claim/device", "claim/root"]
  nonce := "n"
  signedAtUnixMs := 7
  named := cons_ne_nil _ _

/-- A field name that holds a newline takes the place of two field lines: the signature of
`message` covers a claim with another text. -/
theorem message_text_forged :
    ∃ (claim : Judged) (sig : ClaimSignature), sig.format = some fieldsFormat ∧
      sig.signedBytes claim = some message.bytes ∧ "content" ∈ message.signedFields ∧
      signedValue claim.fields "content" ≠ signedValue message.fields "content" := by
  refine ⟨⟨"claim/forged", "message/5f", "message.sent", some "person/ada", "",
      .obj [("content", .str "fire"), ("content=\"hold\"\nto", .str "agent/alder")]⟩,
    ⟨"person/ada", none, "p256:k", ["claim/device", "claim/root"], "n", 7, "s",
      some fieldsFormat, ["content=\"hold\"\nto"]⟩, rfl, by decide +kernel, by decide, ?_⟩
  intro h
  exact absurd (congrArg Json.text h) (by decide +kernel)

end FieldsRequest

end SmallTalk.Principal
