import Libucmq.Library.Outcome
import Libucmq.Weibo.Content

/-! The check of a request, `parse_parments` of `weibo.c`. -/

namespace Libucmq.Request

open CString

inductive Double
  | nan
  | negInf
  | finite (value : Rat)
  | posInf
deriving DecidableEq

def Double.lt : Double → Rat → Bool
  | .nan, _ => false
  | .negInf, _ => true
  | .finite value, bound => value < bound
  | .posInf, _ => false

def Double.gt : Double → Rat → Bool
  | .nan, _ => false
  | .negInf, _ => false
  | .finite value, bound => bound < value
  | .posInf, _ => true

structure Son where
  valuestring : Option (List UInt8) := none
  valueint : Int := 0

structure Item extends Son where
  valuedouble : Double := .finite 0
  child : List Son := []

inductive Field
  | appKey | multimediaURL | interval | sourceID | commentID | content | level | tokenCode | receiverLongitude
  | receiverLatitude | receiverDistance | receiverDirection | receiverSpeed | invalidDis | senderAccountID | tipType
  | callbackURL | autoReply | poiId | poiType | geometryType | messageType | receiverAccountID | receiveCrowd
  | applyCallbackURL | appendFileURL | bizid | receiveSelf | isOnline | isChannel
deriving DecidableEq

abbrev Object := Field → Option Item

inductive Stop
  | invalid (field : Field)
  | overflow
deriving DecidableEq

inductive Kind
  | personal
  | group
  | region
deriving DecidableEq

def short (value : Int) : Int := value.bmod 65536

def maxMember : Nat := 50

def tolower (char : UInt8) : UInt8 := if 65 ≤ char ∧ char ≤ 90 then char + 32 else char

/-- `none` is a negative result; `done` is `p - tmp`. -/
def upperToLower (done : Nat) : List UInt8 → Option (List UInt8)
  | [] => some []
  | char :: rest =>
    if rest.head? = some 58 then if done + 1 = 4 then some (tolower char :: rest) else none
    else (upperToLower (done + 1) rest).map (tolower char :: ·)

def hasText (needle : String) (text : List UInt8) : Bool := (strstr (ascii needle) text).isSome

def checkImei (text : List UInt8) : Bool := text.all fun char => 48 ≤ char && char ≤ 57

def checkAccountID (text : List UInt8) : Bool :=
  text.all fun char => (48 ≤ char && char ≤ 57) || (97 ≤ char && char ≤ 122) || (65 ≤ char && char ≤ 90)

def checkUser : Option (List UInt8) → Bool
  | none => false
  | some text =>
    if text.length = 15 then checkImei text else if text.length = 10 then checkAccountID text else false

def textField (obj : Object) (field : Field) (good : List UInt8 → Bool) : Except Stop (List UInt8) :=
  match obj field with
  | none => .ok []
  | some item =>
    match item.valuestring with
    | none => .error (.invalid field)
    | some text => if good text then .ok text else .error (.invalid field)

def shortField (obj : Object) (field : Field) (default : Int) (good : Int → Bool) : Except Stop Int :=
  match obj field with
  | none => .ok default
  | some item => if good (short item.valueint) then .ok (short item.valueint) else .error (.invalid field)

def doubleField (obj : Object) (field : Field) (bad : Double → Bool) : Except Stop Double :=
  match obj field with
  | none => .ok (.finite (-1))
  | some item => if bad item.valuedouble then .error (.invalid field) else .ok item.valuedouble

def urlField (obj : Object) (field : Field) (good : List UInt8 → Bool) : Except Stop (Option (List UInt8)) :=
  match obj field with
  | none => .ok none
  | some item =>
    match item.valuestring.bind (upperToLower 0) with
    | none => .error (.invalid field)
    | some url => if good url then .ok (some url) else .error (.invalid field)

def required (obj : Object) (field : Field) : Except Stop Item :=
  match obj field with
  | none => .error (.invalid field)
  | some item => .ok item

def isHttp (url : List UInt8) : Bool := hasText "http://" url

def parseMultimedia (obj : Object) : Except Stop (List UInt8) := do
  let url ← urlField obj .multimediaURL fun url =>
    isHttp url && decide (url.length ≤ 255) && (hasText ".amr" url || hasText ".wav" url)
  match url with
  | none => .error (.invalid .multimediaURL)
  | some url => .ok url

def parseInterval (obj : Object) : Except Stop Int := do
  let item ← required obj .interval
  if short item.valueint = 0 ∨ short item.valueint < 0 then .error (.invalid .interval) else .ok (short item.valueint)

def parseContent (obj : Object) : Except Stop (List UInt8) :=
  match obj .content with
  | none => .ok []
  | some item =>
    match contentDecode contentBuffer item.valuestring with
    | .failed => .error (.invalid .content)
    | .overflow => .error .overflow
    | .done content => if 0 ∈ content then .ok (content.takeWhile (· ≠ 0)) else .error .overflow

def parseDirection (obj : Object) : Except Stop (Int × Option Int) :=
  match obj .receiverDirection with
  | none => .ok (-1, some (-1))
  | some item =>
    match item.child[0]? with
    | none => .error (.invalid .receiverDirection)
    | some son =>
      let direction := short son.valueint
      if direction > 360 ∨ (direction < 0 ∧ direction ≠ -1) then .error (.invalid .receiverDirection)
      else
        match item.child[1]? with
        | none => .ok (direction, none)
        | some son =>
          let deviation := short son.valueint
          if deviation < 0 ∨ deviation > 180 then .error (.invalid .receiverDirection)
          else .ok (direction, some deviation)

def parseSpeed (obj : Object) : Except Stop (Int × Int) :=
  match obj .receiverSpeed with
  | none => .ok (-1, -1)
  | some item =>
    match item.child[0]? with
    | none => .error (.invalid .receiverSpeed)
    | some son =>
      let speed := short son.valueint
      if speed < 0 then .error (.invalid .receiverSpeed)
      else
        match item.child[1]? with
        | none => .ok (speed, 999)
        | some son =>
          let deviation := short son.valueint
          if deviation < 0 then .error (.invalid .receiverSpeed) else .ok (speed, deviation)

def parseInvalidDis (obj : Object) : Except Stop Int :=
  match obj .invalidDis with
  | none => .ok 0
  | some item => if item.valueint < 0 then .error (.invalid .invalidDis) else .ok item.valueint

def parseUser (obj : Object) (field : Field) : Except Stop (List UInt8) :=
  match obj field with
  | none => .ok []
  | some item => if checkUser item.valuestring then .ok (item.valuestring.getD []) else .error (.invalid field)

/-- It is `multimediaURL` that is looked at once more. -/
def parseCallback (obj : Object) (multimediaURL : List UInt8) : Except Stop (List UInt8) :=
  (urlField obj .callbackURL fun _ => isHttp multimediaURL && decide (multimediaURL.length ≤ 255)).map (·.getD [])

structure Personal where
  geometryType : Option Int
  bizid : List UInt8
  messageType : Int
  receiverAccountID : List UInt8

structure Crowd where
  messageType : Int
  applyCallbackURL : Option (List UInt8)
  appendFileURL : List UInt8
  bizid : Option (List UInt8)
  receiveSelf : Int
  isOnline : Int
  isChannel : Int

inductive Rest
  | personal (rest : Personal)
  | crowd (rest : Crowd)

def bizidWord (obj : Object) : Except Stop String :=
  match obj .geometryType with
  | none => .ok "a4"
  | some item =>
    let type := short item.valueint
    if type = 4 then .ok "a6"
    else if type = 1 ∨ type = 2 ∨ type = 3 ∨ type = 5 then .ok "a8"
    else .error (.invalid .geometryType)

/-- `commentID` is never NULL, so no type means type 4. -/
def personalMessageType (obj : Object) : Except Stop Int :=
  let messageType := (obj .messageType).elim 4 fun item => short item.valueint
  if messageType ≠ 1 ∧ messageType ≠ 4 then .error (.invalid .messageType) else .ok messageType

def parseReceiver (obj : Object) : Except Stop (List UInt8) := do
  let receiver ← required obj .receiverAccountID
  if checkUser receiver.valuestring then .ok (receiver.valuestring.getD []) else .error (.invalid .receiverAccountID)

def parsePersonal (obj : Object) (uuid : List UInt8) : Except Stop Rest := do
  let word ← bizidWord obj
  let messageType ← personalMessageType obj
  let receiverAccountID ← parseReceiver obj
  let geometryType := (obj .geometryType).map fun item => short item.valueint
  .ok (.personal { geometryType, bizid := ascii word ++ uuid, messageType, receiverAccountID })

def parseReceiveCrowd (obj : Object) : Except Stop Unit :=
  match obj .receiveCrowd with
  | none => .ok ()
  | some item =>
    match item.child[0]? with
    | none => .ok ()
    | some son =>
      if item.child.length > maxMember ∨ son.valuestring = none then .error (.invalid .receiveCrowd) else .ok ()

def zeroOrOne (value : Int) : Bool := value = 0 || value = 1

def crowdMessageType (obj : Object) (kind : Kind) (before : Crowd) : Except Stop Int :=
  if kind = .group then
    let messageType := (obj .messageType).elim 3 fun item =>
      if short item.valueint = 1 then 2 else short item.valueint
    if messageType ≠ 2 ∧ messageType ≠ 3 then .error (.invalid .messageType) else .ok messageType
  else .ok (if (obj .messageType).isNone then 1 else before.messageType)

def groupFlag (obj : Object) (kind : Kind) (field : Field) (before : Int) : Except Stop Int :=
  if kind = .group then shortField obj field 1 zeroOrOne else .ok before

/-- A region skips the type, `isOnline` and `isChannel`; `before` was there. -/
def parseCrowd (obj : Object) (kind : Kind) (before : Crowd) : Except Stop Rest := do
  let messageType ← crowdMessageType obj kind before
  parseReceiveCrowd obj
  let applyCallbackURL ← urlField obj .applyCallbackURL isHttp
  let appendFileURL ← textField obj .appendFileURL fun text => text.length ≤ 255
  let bizid ← required obj .bizid
  let receiveSelf ← shortField obj .receiveSelf 1 zeroOrOne
  let isOnline ← groupFlag obj kind .isOnline before.isOnline
  let isChannel ← groupFlag obj kind .isChannel before.isChannel
  .ok (.crowd ⟨messageType, applyCallbackURL, appendFileURL, bizid.valuestring, receiveSelf, isOnline, isChannel⟩)

structure Weibo where
  appKey : Option (List UInt8)
  multimediaURL : List UInt8
  interval : Int
  endTime : Int
  sourceID : List UInt8
  commentID : List UInt8
  content : List UInt8
  level : Int
  tokenCode : Option (List UInt8)
  longitude : Double
  latitude : Double
  distance : Double
  direction : Int × Option Int
  speed : Int × Int
  invalidDis : Int
  senderAccountID : List UInt8
  tipType : Int
  callbackURL : List UInt8
  autoReply : Int
  poi : List UInt8 × List UInt8
  rest : Rest

structure Input where
  kind : Kind
  now : Int
  uuid : List UInt8
  before : Crowd

def parseRest (input : Input) (obj : Object) : Except Stop Rest :=
  match input.kind with
  | .personal => parsePersonal obj input.uuid
  | kind => parseCrowd obj kind input.before

def parseParments (input : Input) (obj : Object) : Except Stop Weibo := do
  let appKey ← required obj .appKey
  let multimediaURL ← parseMultimedia obj
  let interval ← parseInterval obj
  let sourceID ← textField obj .sourceID fun text => text.length ≤ 32
  let commentID ← textField obj .commentID fun text => text.length ≤ 32
  let content ← parseContent obj
  let level ← shortField obj .level 99 fun level => level ≤ 99 && 0 ≤ level
  let longitude ← doubleField obj .receiverLongitude fun value => value.gt 180 || value.lt (-180)
  let latitude ← doubleField obj .receiverLatitude fun value => value.gt 90 || value.lt (-90)
  let distance ← doubleField obj .receiverDistance fun value => value.lt 0
  let direction ← parseDirection obj
  let speed ← parseSpeed obj
  let invalidDis ← parseInvalidDis obj
  let senderAccountID ← parseUser obj .senderAccountID
  let tipType ← shortField obj .tipType 0 zeroOrOne
  let callbackURL ← parseCallback obj multimediaURL
  let autoReply ← shortField obj .autoReply 0 zeroOrOne
  let poiId ← textField obj .poiId fun _ => true
  let poiType ← textField obj .poiType fun _ => true
  let rest ← parseRest input obj
  .ok { appKey := appKey.valuestring, multimediaURL, interval, endTime := interval + input.now, sourceID, commentID,
        content, level, tokenCode := (obj .tokenCode).elim (some []) (·.valuestring), longitude, latitude, distance,
        direction, speed, invalidDis, senderAccountID, tipType, callbackURL, autoReply, poi := (poiId, poiType), rest }

/-- A URL that is there has `http://` once its scheme is in lower case. -/
def UrlGood (obj : Object) (field : Field) (limit : Option Nat) : Prop :=
  ∀ item, obj field = some item → ∃ text url, item.valuestring = some text ∧ upperToLower 0 text = some url ∧
    isHttp url = true ∧ ∀ most, limit = some most → url.length ≤ most

def InRange (obj : Object) (field : Field) (low : Rat) (high : Option Rat) : Prop :=
  ∀ item, obj field = some item → item.valuedouble ≠ .nan ∧ item.valuedouble.lt low = false ∧
    ∀ most, high = some most → item.valuedouble.gt most = false

/-- The numbers of a field as the request has them, before they become a `short`. -/
def numbers (obj : Object) : Field → List Int
  | .receiverSpeed => (obj .receiverSpeed).elim [] fun item => (item.child.take 2).map (·.valueint)
  | field => (obj field).elim [] fun item => [item.valueint]

def Between (obj : Object) (field : Field) (low high : Int) : Prop :=
  ∀ value ∈ numbers obj field, low ≤ value ∧ value ≤ high

structure Validated (obj : Object) : Prop where
  multimedia : UrlGood obj .multimediaURL (some 255)
  callback : UrlGood obj .callbackURL (some 255)
  applyCallback : UrlGood obj .applyCallbackURL none
  level : Between obj .level 0 99
  longitude : InRange obj .receiverLongitude (-180) (some 180)
  latitude : InRange obj .receiverLatitude (-90) (some 90)
  distance : InRange obj .receiverDistance 0 none
  speed : Between obj .receiverSpeed 0 32767
  interval : Between obj .interval 1 32767
  tipType : Between obj .tipType 0 1
  autoReply : Between obj .autoReply 0 1
  receiveSelf : Between obj .receiveSelf 0 1

def NotNan (obj : Object) (field : Field) : Prop := ∀ item, obj field = some item → item.valuedouble ≠ .nan

def FitsShort (obj : Object) (field : Field) : Prop := Between obj field (-32768) 32767

structure Unchecked (input : Input) (obj : Object) : Prop where
  callback : UrlGood obj .callbackURL (some 255)
  applyCallback : input.kind = .personal → UrlGood obj .applyCallbackURL none
  longitude : NotNan obj .receiverLongitude
  latitude : NotNan obj .receiverLatitude
  distance : NotNan obj .receiverDistance
  fits : ∀ field ∈ [Field.level, .receiverSpeed, .interval, .tipType, .autoReply, .receiveSelf], FitsShort obj field
  receiveSelf : input.kind = .personal → Between obj .receiveSelf 0 1

variable {input : Input} {obj : Object} {weibo : Weibo} {field : Field}

theorem between_iff {low high : Int} (least : -32768 ≤ low) (most : high ≤ 32767)
    (checked : ∀ value ∈ numbers obj field, low ≤ short value ∧ short value ≤ high) :
    Between obj field low high ↔ FitsShort obj field := by
  refine forall₂_congr fun value member => ?_
  have shortened := checked value member
  constructor
  · omega
  · intro fits
    rwa [short, Int.bmod_eq_of_le (by omega) (by omega)] at shortened

theorem shortField_ok {default value : Int} {good : Int → Bool} (plain : field ≠ .receiverSpeed)
    (returned : shortField obj field default good = .ok value) : ∀ value ∈ numbers obj field, good (short value) := by
  have values : numbers obj field = (obj field).elim [] fun item => [item.valueint] := by
    cases field <;> first | rfl | exact absurd rfl plain
  rw [values]
  simp only [shortField] at returned
  split at returned
  · next absent => simp [absent]
  · next item there =>
      split at returned
      · next right => simpa [there] using right
      · cases returned

theorem doubleField_ok {bad : Double → Bool} {value : Double} (returned : doubleField obj field bad = .ok value)
    {item : Item} (there : obj field = some item) : bad item.valuedouble = false := by
  simp only [doubleField, there] at returned
  split at returned
  · cases returned
  · next right => simpa using right

theorem urlField_ok {good : List UInt8 → Bool} {result : Option (List UInt8)}
    (returned : urlField obj field good = .ok result) {item : Item} (there : obj field = some item) :
    ∃ text url, item.valuestring = some text ∧ upperToLower 0 text = some url ∧ good url = true ∧
      result = some url := by
  simp only [urlField, there] at returned
  split at returned
  · cases returned
  · next url found =>
      obtain ⟨text, textEq, urlEq⟩ := Option.bind_eq_some_iff.mp found
      split at returned
      · next right =>
          cases returned
          exact ⟨text, url, textEq, urlEq, right, rfl⟩
      · cases returned

theorem parseMultimedia_ok {url : List UInt8} (returned : parseMultimedia obj = .ok url) :
    UrlGood obj .multimediaURL (some 255) := by
  obtain ⟨result, found, -⟩ := Outcome.bind_ok_iff.mp returned
  intro item there
  obtain ⟨text, url, textEq, urlEq, right, -⟩ := urlField_ok found there
  simp only [Bool.and_eq_true, decide_eq_true_eq] at right
  refine ⟨text, url, textEq, urlEq, right.1.1, ?_⟩
  rintro most ⟨⟩
  exact right.1.2

theorem parseInterval_ok {interval : Int} (returned : parseInterval obj = .ok interval) :
    ∀ value ∈ numbers obj .interval, 0 < short value := by
  obtain ⟨item, there, found⟩ := Outcome.bind_ok_iff.mp returned
  have there : obj .interval = some item := by
    rw [required] at there
    split at there <;> cases there
    assumption
  split at found
  · cases found
  · simp only [numbers, there, Option.elim_some, List.mem_singleton, forall_eq]
    omega

theorem parseSpeed_ok {speed : Int × Int} (returned : parseSpeed obj = .ok speed) :
    ∀ value ∈ numbers obj .receiverSpeed, 0 ≤ short value := by
  rw [parseSpeed] at returned
  split at returned
  · next absent => simp [numbers, absent]
  · next item there =>
      simp only [numbers, there, Option.elim_some]
      cases sons : item.child with
      | nil => simp
      | cons first rest => cases rest <;> grind

theorem short_le (value : Int) : short value ≤ 32767 := by
  have := @Int.bmod_lt value 65536 (by decide)
  rw [short]
  omega

theorem parseCrowd_ok {kind : Kind} {before : Crowd} {rest : Rest} (returned : parseCrowd obj kind before = .ok rest) :
    UrlGood obj .applyCallbackURL none ∧ ∀ value ∈ numbers obj .receiveSelf, zeroOrOne (short value) := by
  simp only [parseCrowd, Outcome.bind_ok_iff] at returned
  obtain ⟨_, -, _, -, _, apply, _, -, _, -, receiveSelf, self, _, -, _, -, done⟩ := returned
  refine ⟨fun item there => ?_, shortField_ok (by decide) self⟩
  obtain ⟨text, url, textEq, urlEq, right, -⟩ := urlField_ok apply there
  exact ⟨text, url, textEq, urlEq, right, by simp⟩

theorem parseRest_ok {rest : Rest} (returned : parseRest input obj = .ok rest) (crowd : input.kind ≠ .personal) :
    UrlGood obj .applyCallbackURL none ∧ ∀ value ∈ numbers obj .receiveSelf, zeroOrOne (short value) := by
  cases kind : input.kind with
  | personal => exact absurd kind crowd
  | group | region =>
      simp only [parseRest, kind] at returned
      exact parseCrowd_ok returned

theorem flag_iff (checked : ∀ value ∈ numbers obj field, zeroOrOne (short value)) :
    Between obj field 0 1 ↔ FitsShort obj field := by
  refine between_iff (by decide) (by decide) fun value member => ?_
  have flag := checked value member
  simp only [zeroOrOne, Bool.or_eq_true, decide_eq_true_eq] at flag
  omega

theorem inRange_iff {low : Rat} {high : Option Rat}
    (checked : ∀ item, obj field = some item → item.valuedouble.lt low = false ∧
      ∀ most, high = some most → item.valuedouble.gt most = false) :
    InRange obj field low high ↔ NotNan obj field := by
  constructor
  · exact fun inRange item there => (inRange item there).1
  · exact fun notNan item there => ⟨notNan item there, checked item there⟩

/-- All checks hold of the request exactly when what is not looked at passes them and every number fits a `short`. -/
theorem parseParments_validated_iff (returned : parseParments input obj = .ok weibo) :
    Validated obj ↔ Unchecked input obj := by
  simp only [parseParments, Outcome.bind_ok_iff] at returned
  obtain ⟨_, -, _, multimedia, _, interval, _, -, _, -, _, -, level, levelEq, longitude, longitudeEq, latitude,
    latitudeEq, distance, distanceEq, _, -, speed, speedEq, _, -, _, -, tipType, tipTypeEq, _, -, autoReply,
    autoReplyEq, _, -, _, -, rest, restEq, done⟩ := returned
  have longitudeIff : InRange obj .receiverLongitude (-180) (some 180) ↔ NotNan obj .receiverLongitude :=
    inRange_iff fun item there => by simpa [and_comm] using doubleField_ok longitudeEq there
  have latitudeIff : InRange obj .receiverLatitude (-90) (some 90) ↔ NotNan obj .receiverLatitude :=
    inRange_iff fun item there => by simpa [and_comm] using doubleField_ok latitudeEq there
  have distanceIff : InRange obj .receiverDistance 0 none ↔ NotNan obj .receiverDistance :=
    inRange_iff fun item there => by simpa using doubleField_ok distanceEq there
  have levelIff : Between obj .level 0 99 ↔ FitsShort obj .level :=
    between_iff (by decide) (by decide) fun value member => by
      simpa [and_comm] using shortField_ok (by decide) levelEq value member
  have speedIff : Between obj .receiverSpeed 0 32767 ↔ FitsShort obj .receiverSpeed :=
    between_iff (by decide) (by decide) fun value member => ⟨parseSpeed_ok speedEq value member, short_le value⟩
  have intervalIff : Between obj .interval 1 32767 ↔ FitsShort obj .interval :=
    between_iff (by decide) (by decide) fun value member => ⟨parseInterval_ok interval value member, short_le value⟩
  have tipTypeIff := flag_iff (shortField_ok (by decide) tipTypeEq)
  have autoReplyIff := flag_iff (shortField_ok (by decide) autoReplyEq)
  constructor
  · intro validated
    refine {
      callback := validated.callback
      applyCallback := fun _ => validated.applyCallback
      longitude := longitudeIff.mp validated.longitude
      latitude := latitudeIff.mp validated.latitude
      distance := distanceIff.mp validated.distance
      fits := ?_
      receiveSelf := fun _ => validated.receiveSelf }
    have self : FitsShort obj .receiveSelf := fun value member => by
      have := validated.receiveSelf value member
      omega
    simp [levelIff.mp validated.level, speedIff.mp validated.speed, intervalIff.mp validated.interval,
      tipTypeIff.mp validated.tipType, autoReplyIff.mp validated.autoReply, self]
  · intro unchecked
    have crowd : input.kind ≠ .personal → UrlGood obj .applyCallbackURL none ∧ Between obj .receiveSelf 0 1 := by
      intro other
      obtain ⟨apply, self⟩ := parseRest_ok restEq other
      exact ⟨apply, (flag_iff self).mpr (unchecked.fits _ (by simp))⟩
    refine {
      multimedia := parseMultimedia_ok multimedia
      callback := unchecked.callback
      applyCallback := ?_
      level := levelIff.mpr (unchecked.fits _ (by simp))
      longitude := longitudeIff.mpr unchecked.longitude
      latitude := latitudeIff.mpr unchecked.latitude
      distance := distanceIff.mpr unchecked.distance
      speed := speedIff.mpr (unchecked.fits _ (by simp))
      interval := intervalIff.mpr (unchecked.fits _ (by simp))
      tipType := tipTypeIff.mpr (unchecked.fits _ (by simp))
      autoReply := autoReplyIff.mpr (unchecked.fits _ (by simp))
      receiveSelf := ?_ }
    · by_cases personal : input.kind = .personal
      · exact unchecked.applyCallback personal
      · exact (crowd personal).1
    · by_cases personal : input.kind = .personal
      · exact unchecked.receiveSelf personal
      · exact (crowd personal).2

def textItem (text : String) : Item := { valuestring := some (ascii text) }

def sampleObject (callbackURL : Option Item) : Object
  | .appKey => some (textItem "key")
  | .multimediaURL => some (textItem "HTTP://host/a.amr")
  | .interval => some { valueint := 60 }
  | .receiverAccountID => some (textItem "123456789012345")
  | .callbackURL => callbackURL
  | _ => none

def sampleInput : Input := ⟨.personal, 0, [], ⟨0, none, [], none, 0, 0, 0⟩⟩

theorem parseParments_validated_sample : ∃ weibo, parseParments sampleInput (sampleObject none) = .ok weibo ∧
    Validated (sampleObject none) := by
  refine ⟨_, rfl, (@parseParments_validated_iff sampleInput _ _ rfl).mpr ?_⟩
  constructor
  · nofun
  · exact fun _ => nofun
  · nofun
  · nofun
  · nofun
  · simp only [FitsShort, Between]
    decide
  · exact fun _ => nofun

theorem parseParments_validated_callback : ∃ weibo,
    parseParments sampleInput (sampleObject (some (textItem "evil"))) = .ok weibo ∧
      weibo.callbackURL = ascii "evil" ∧
      isHttp weibo.callbackURL = false ∧
      ¬ Validated (sampleObject (some (textItem "evil"))) := by
  refine ⟨_, rfl, by decide, by decide, fun validated => ?_⟩
  obtain ⟨text, url, textEq, urlEq, http, -⟩ := validated.callback _ rfl
  cases textEq
  cases urlEq
  revert http
  decide

end Libucmq.Request
