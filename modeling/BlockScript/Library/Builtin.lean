/-!
# The built-in library

The text that every program begins with unless another library is loaded: a part for all programs,
and one for each of the two hosts.
-/

namespace BlockScript.Library

def commonText : String := String.join (List.map (· ++ "\n") [
  "// Runtime shared by every generated BunnyHop program.",
  "// Expects a host adapter `_host` (defined by local.js or remote.js).",
  "",
  "const _callStack = [];",
  "",
  "function _Sound(frequency, duration) \x7b",
  "\tthis.frequency = frequency;",
  "\tthis.duration = duration;",
  "\x7d",
  "",
  "const _nilSound = new _Sound(0, 0);",
  "",
  "function _createSound(frequency, duration) \x7b",
  "\treturn new _Sound(Number(frequency), Number(duration));",
  "\x7d",
  "",
  "function _pushSound(sound, list) \x7b",
  "\tlist.push(sound);",
  "\treturn list;",
  "\x7d",
  "",
  "function _boolToStr(value) \x7b",
  "\treturn value ? 'true' : 'false';",
  "\x7d",
  "",
  "function _strToNum(text) \x7b",
  "\tconst num = Number(text);",
  "\treturn isFinite(num) ? num : 0;",
  "\x7d",
  "",
  "function _randomInt(min, max) \x7b",
  "\tconst lo = Math.ceil(Math.min(min, max));",
  "\tconst hi = Math.floor(Math.max(min, max));",
  "\treturn Math.floor(Math.random() * (hi - lo + 1)) + lo;",
  "\x7d",
  "",
  "function _sleep(seconds) \x7b",
  "\tconst ms = Math.max(0, Number(seconds) * 1000);",
  "\tif (!(ms > 0))",
  "\t\treturn;",
  "\tif (typeof SharedArrayBuffer !== 'undefined' && typeof Atomics !== 'undefined') \x7b",
  "\t\tAtomics.wait(new Int32Array(new SharedArrayBuffer(4)), 0, 0, ms);",
  "\t\treturn;",
  "\t\x7d",
  "\tconst end = Date.now() + ms;",
  "\twhile (Date.now() < end) \x7b\x7d",
  "\x7d",
  "",
  "// lists",
  "",
  "function _validIndex(list, idx) \x7b",
  "\treturn Number.isInteger(idx) && idx >= 0 && idx < list.length;",
  "\x7d",
  "",
  "function _aryPush(list, value) \x7b",
  "\tlist.push(value);",
  "\x7d",
  "",
  "function _aryPop(list) \x7b",
  "\tlist.pop();",
  "\x7d",
  "",
  "function _aryInsert(list, idx, value) \x7b",
  "\tif (Number.isInteger(idx) && idx >= 0 && idx <= list.length)",
  "\t\tlist.splice(idx, 0, value);",
  "\x7d",
  "",
  "function _aryRemove(list, idx) \x7b",
  "\tif (_validIndex(list, idx))",
  "\t\tlist.splice(idx, 1);",
  "\x7d",
  "",
  "function _aryAddAll(list, other) \x7b",
  "\tArray.prototype.push.apply(list, other);",
  "\x7d",
  "",
  "function _aryClear(list) \x7b",
  "\tlist.length = 0;",
  "\x7d",
  "",
  "function _arySet(list, idx, value) \x7b",
  "\tif (_validIndex(list, idx))",
  "\t\tlist[idx] = value;",
  "\x7d",
  "",
  "function _aryGet(list, idx) \x7b",
  "\treturn _validIndex(list, idx) ? list[idx] : undefined;",
  "\x7d",
  "",
  "function _aryGetLast(list) \x7b",
  "\treturn list[list.length - 1];",
  "\x7d",
  "",
  "function _aryLength(list) \x7b",
  "\treturn list.length;",
  "\x7d",
  "",
  "// locks",
  "",
  "function _genLockObj() \x7b",
  "\treturn \x7b locked: false \x7d;",
  "\x7d",
  "",
  "function _tryLock(lock) \x7b",
  "\tif (lock.locked)",
  "\t\treturn false;",
  "\tlock.locked = true;",
  "\treturn true;",
  "\x7d",
  "",
  "function _unlock(lock) \x7b",
  "\tlock.locked = false;",
  "\x7d",
  "",
  "// events",
  "",
  "const _eventHandlers = \x7b\x7d;",
  "",
  "function _addEvent(handler, eventName) \x7b",
  "\tif (!_eventHandlers[eventName])",
  "\t\t_eventHandlers[eventName] = [];",
  "\t_eventHandlers[eventName].push(handler);",
  "\x7d",
  "",
  "function _fireEvent(eventName) \x7b",
  "\tconst handlers = _eventHandlers[eventName] || [];",
  "\tfor (const handler of handlers)",
  "\t\thandler();",
  "\x7d",
  "",
  "// host calls",
  "",
  "function _println(text) \x7b",
  "\t_host.println(String(text));",
  "\x7d",
  "",
  "function _scan(prompt) \x7b",
  "\tconst input = _host.scan(String(prompt));",
  "\treturn input === null || input === undefined ? '' : String(input);",
  "\x7d",
  "",
  "function _say(text) \x7b",
  "\t_host.say(String(text));",
  "\x7d",
  "",
  "function _playMelodies(sounds) \x7b",
  "\tfor (const sound of sounds)",
  "\t\t_host.playSound(sound.frequency, sound.duration);",
  "\x7d",
  "",
  "function _measureDistance() \x7b",
  "\treturn Number(_host.measureDistance());",
  "\x7d",
  "",
  "function _moveForward(speed, time) \x7b",
  "\t_host.move('forward', speed, time);",
  "\x7d",
  "",
  "function _moveBackward(speed, time) \x7b",
  "\t_host.move('backward', speed, time);",
  "\x7d",
  "",
  "function _turnRight(speed, time) \x7b",
  "\t_host.move('right', speed, time);",
  "\x7d",
  "",
  "function _turnLeft(speed, time) \x7b",
  "\t_host.move('left', speed, time);",
  "\x7d"])

def localText : String := String.join (List.map (· ++ "\n") [
  "// Host adapter for programs run on the editor's machine.",
  "// Uses a `bhLocalHost` object when the embedding engine provides one.",
  "",
  "const _host = (typeof bhLocalHost !== 'undefined') ? bhLocalHost : \x7b",
  "\tprintln: (text) => console.log(text),",
  "\tscan: (prompt) => \x7b",
  "\t\tconsole.log(prompt);",
  "\t\treturn '';",
  "\t\x7d,",
  "\tsay: (text) => console.log(text),",
  "\tplaySound: (frequency, duration) => _sleep(duration),",
  "\tmeasureDistance: () => 0,",
  "\tmove: (direction, speed, time) => _sleep(time),",
  "\x7d;"])

def remoteText : String := String.join (List.map (· ++ "\n") [
  "// Host adapter for programs run on a connected device.",
  "// Every host call is sent as one JSON command line through `bhRemote`.",
  "",
  "const _remoteSend = (typeof bhRemote !== 'undefined')",
  "\t? (command) => bhRemote.send(JSON.stringify(command))",
  "\t: (command) => console.log(JSON.stringify(command));",
  "",
  "const _remoteRecv = (typeof bhRemote !== 'undefined')",
  "\t? () => bhRemote.receive()",
  "\t: () => null;",
  "",
  "const _host = \x7b",
  "\tprintln: (text) => _remoteSend(\x7b cmd: 'println', text: text \x7d),",
  "\tscan: (prompt) => \x7b",
  "\t\t_remoteSend(\x7b cmd: 'scan', prompt: prompt \x7d);",
  "\t\treturn _remoteRecv();",
  "\t\x7d,",
  "\tsay: (text) => _remoteSend(\x7b cmd: 'say', text: text \x7d),",
  "\tplaySound: (frequency, duration) =>",
  "\t\t_remoteSend(\x7b cmd: 'playSound', frequency: frequency, duration: duration \x7d),",
  "\tmeasureDistance: () => \x7b",
  "\t\t_remoteSend(\x7b cmd: 'measureDistance' \x7d);",
  "\t\treturn _remoteRecv();",
  "\t\x7d,",
  "\tmove: (direction, speed, time) =>",
  "\t\t_remoteSend(\x7b cmd: 'move', direction: direction, speed: speed, time: time \x7d),",
  "\x7d;"])

end BlockScript.Library
